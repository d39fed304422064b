import Hypercore.Chain.Engines
import Hypercore.Chain.EvmLockstep
import Hypercore.Chain.SignedEffect
import Hypercore.Engine.LeverageChange
import Hypercore.Engine.TriggerLife
import Hypercore.Gateway.Replay
import Hypercore.Spot.Supply
/-!
# Hypercore.Chain.Failure

Transactions that fail.

A handler that fails may still put an engine back. That writes over the copy of the balance sheet
that is stored with the engine, which nothing reads: an engine is read on the sheet of the
application. States that differ in these copies alone are not told apart by anything a node does
(`ReadsAlike.answers`), so a failed transaction leaves no trace.

The exception is a batch of orders: one that cannot be read ends it with an error, and the orders
before it stay executed.
-/

namespace Hypercore

open Exec Int128

/-- The orders of an action. -/
def TransactionType.orders : TransactionType → List OrderWire
  | .order orders | .spotOrder orders => orders
  | _ => []

namespace AppState

/-! ### States that read alike -/

/-- The application with other engines stored. -/
def withEngines (s : AppState) (p : Option Engine) (q : Option SpotEngineState) : AppState :=
  { s with perpEngine := p, spotEngine := q }

/-- Two applications that differ at most in the balance sheets stored with their engines. -/
def ReadsAlike (s t : AppState) : Prop :=
  ∃ p q, t = s.withEngines p q ∧ t.perp = s.perp ∧ t.spot = s.spot

namespace ReadsAlike

variable {s t : AppState}

theorem refl (s : AppState) : ReadsAlike s s := ⟨s.perpEngine, s.spotEngine, rfl, rfl, rfl⟩

theorem unifiedState (h : ReadsAlike s t) : s.unifiedState = t.unifiedState := by
  obtain ⟨p, q, rfl, -, -⟩ := h
  rfl

theorem perp_eq (h : ReadsAlike s t) : t.perp = s.perp := by
  obtain ⟨_, _, -, hperp, -⟩ := h
  exact hperp

theorem spot_eq (h : ReadsAlike s t) : t.spot = s.spot := by
  obtain ⟨_, _, -, -, hspot⟩ := h
  exact hspot

/-- The perp engine on a sheet is read alike, whatever sheet it is. -/
theorem perp_on (h : ReadsAlike s t) (u : UnifiedState) :
    (t.setUnified u).perp = (s.setUnified u).perp := by
  obtain ⟨p, q, rfl, hperp, -⟩ := h
  have hmap := congrArg (Option.map fun e : Engine =>
    { e with unifiedState := e.unifiedState.map fun _ => u }) hperp
  simpa [perp, setUnified, withEngines, Option.map_map, Function.comp_def] using hmap

theorem spot_on (h : ReadsAlike s t) (u : UnifiedState) :
    (t.setUnified u).spot = (s.setUnified u).spot := by
  obtain ⟨p, q, rfl, -, hspot⟩ := h
  have hmap := congrArg (Option.map fun e : SpotEngineState => { e with unifiedState := u }) hspot
  simpa [spot, setUnified, withEngines, Option.map_map, Function.comp_def] using hmap

theorem setUnified (h : ReadsAlike s t) (u : UnifiedState) :
    ReadsAlike (s.setUnified u) (t.setUnified u) := by
  have hperp := h.perp_on u
  have hspot := h.spot_on u
  obtain ⟨p, q, rfl, -, -⟩ := h
  exact ⟨p, q, rfl, hperp, hspot⟩

theorem setPerp (h : ReadsAlike s t) (e : Engine) : ReadsAlike (s.setPerp e) (t.setPerp e) := by
  have hspot := h.spot_on (e.unifiedState.getD s.unifiedState)
  obtain ⟨p, q, rfl, -, -⟩ := h
  refine ⟨some e, q, rfl, ?_, hspot⟩
  cases hu : e.unifiedState <;> simp [perp, AppState.setPerp, hu]

theorem setSpot (h : ReadsAlike s t) (e : SpotEngineState) :
    ReadsAlike (s.setSpot e) (t.setSpot e) := by
  have hperp := h.perp_on e.unifiedState
  obtain ⟨p, q, rfl, -, -⟩ := h
  exact ⟨p, some e, rfl, hperp, rfl⟩

/-- A change that neither reads nor writes the engines and the sheet. -/
theorem update {f : AppState → AppState}
    (hf : ∀ (s : AppState) p q, f (s.withEngines p q) = (f s).withEngines p q)
    (hunified : ∀ s, (f s).unifiedState = s.unifiedState) (h : ReadsAlike s t) :
    ReadsAlike (f s) (f t) := by
  have hread : ∀ s, (f s).perp = s.perp ∧ (f s).spot = s.spot := by
    intro s
    have hself : f s = (f s).withEngines s.perpEngine s.spotEngine :=
      hf s s.perpEngine s.spotEngine
    unfold perp spot
    rw [hunified, hself]
    exact ⟨rfl, rfl⟩
  obtain ⟨p, q, rfl, hp, hq⟩ := h
  refine ⟨p, q, hf s p q, ?_, ?_⟩
  · rw [(hread _).1, (hread _).1, hp]
  · rw [(hread _).2, (hread _).2, hq]

theorem foldl {ι : Type} {f : AppState → ι → AppState}
    (hf : ∀ {s t} i, ReadsAlike s t → ReadsAlike (f s i) (f t i)) (is : List ι)
    (h : ReadsAlike s t) : ReadsAlike (is.foldl f s) (is.foldl f t) := by
  induction is generalizing s t with
  | nil => exact h
  | cons i is ih => exact ih (hf i h)

theorem registerCloid (h : ReadsAlike s t) (a : AccountAddress) (c : ClientOrderId) (m : MarketId)
    (i : OrderId) : ReadsAlike (s.registerCloid a c m i) (t.registerCloid a c m i) :=
  h.update (f := fun s => s.registerCloid a c m i) (fun _ _ _ => rfl) fun _ => rfl

theorem removeCloid (h : ReadsAlike s t) (a : AccountAddress) (c : ClientOrderId) :
    ReadsAlike (s.removeCloid a c) (t.removeCloid a c) := by
  refine h.update (f := fun s => s.removeCloid a c) (fun s p q => ?_) fun s => ?_
  · unfold AppState.removeCloid withEngines getOrderByCloid
    dsimp only
    split <;> rfl
  · unfold AppState.removeCloid
    split <;> rfl

theorem removeCloidByOrder (h : ReadsAlike s t) (m : MarketId) (i : OrderId) :
    ReadsAlike (s.removeCloidByOrder m i) (t.removeCloidByOrder m i) := by
  refine h.update (f := fun s => s.removeCloidByOrder m i) (fun s p q => ?_) fun s => ?_
  · unfold AppState.removeCloidByOrder withEngines
    dsimp only
    split <;> rfl
  · unfold AppState.removeCloidByOrder
    split <;> rfl

theorem addPendingBlockEvent (h : ReadsAlike s t) (e : BlockEvent) :
    ReadsAlike (s.addPendingBlockEvent e) (t.addPendingBlockEvent e) :=
  h.update (f := fun s => s.addPendingBlockEvent e) (fun _ _ _ => rfl) fun _ => rfl

theorem updateTimestampNonce (h : ReadsAlike s t) (a : AccountAddress) (n : Nat) :
    ReadsAlike (s.updateTimestampNonce a n) (t.updateTimestampNonce a n) := by
  refine h.update (f := fun s => s.updateTimestampNonce a n) (fun s p q => ?_) fun s => ?_
  all_goals
    unfold AppState.updateTimestampNonce
    split <;> rfl

theorem takeTradeId (h : ReadsAlike s t) :
    Sim (fun x y => x.1 = y.1 ∧ ReadsAlike x.2 y.2) s.takeTradeId t.takeTradeId := by
  obtain ⟨p, q, rfl, hp, hq⟩ := h
  exact Sim.bind_same _ fun n => .ok ⟨rfl, p, q, rfl, hp, hq⟩

theorem incrementNonce (h : ReadsAlike s t) (a : AccountAddress) :
    Sim ReadsAlike (s.incrementNonce a) (t.incrementNonce a) := by
  obtain ⟨p, q, rfl, hp, hq⟩ := h
  exact Sim.bind_same _ fun n => .ok ⟨p, q, rfl, hp, hq⟩

/-! ### Orders -/

/-- The same answer, and states that read alike. -/
abbrev Answers {α : Type} : α × AppState → α × AppState → Prop :=
  fun x y => x.1 = y.1 ∧ ReadsAlike x.2 y.2

/-- Batches of orders that differ at most in the application. -/
def Batches (b c : OrderBatch) : Prop :=
  ReadsAlike b.app c.app ∧ c = { b with app := c.app }

theorem recordSpotFill (h : ReadsAlike s t) (fill : SpotFill) :
    Sim ReadsAlike (s.recordSpotFill fill) (t.recordSpotFill fill) := by
  refine h.takeTradeId.bind ?_
  rintro ⟨n, s'⟩ ⟨_, t'⟩ ⟨rfl, h⟩
  exact .ok ((h.addPendingBlockEvent _).addPendingBlockEvent _)

theorem recordPerpFill (h : ReadsAlike s t) (fill : Fill) :
    Sim ReadsAlike (s.recordPerpFill fill) (t.recordPerpFill fill) := by
  refine h.takeTradeId.bind ?_
  rintro ⟨n, s'⟩ ⟨_, t'⟩ ⟨rfl, h⟩
  exact Sim.bind_same _ fun fee => .ok ((h.addPendingBlockEvent _).addPendingBlockEvent _)

theorem recordPlaced (h : ReadsAlike s t) (rests : Bool) (a : AccountAddress) (m : MarketId)
    (order : Order) (reduceOnly : Bool) (time : Timestamp) :
    ReadsAlike (s.recordPlaced rests a m order reduceOnly time)
      (t.recordPlaced rests a m order reduceOnly time) := by
  unfold AppState.recordPlaced
  split
  · exact h.addPendingBlockEvent _
  · exact h

variable {b c : OrderBatch}

theorem batchSpotOrder (h : Batches b c) (a : AccountAddress) (m : MarketId) (q : OrderRequest)
    (time : Timestamp) :
    Sim Batches (AppState.batchSpotOrder b a m q time) (AppState.batchSpotOrder c a m q time) := by
  obtain ⟨h, hc⟩ := h
  rw [hc]
  unfold AppState.batchSpotOrder
  dsimp only
  rw [h.spot_eq]
  cases b.app.spot with
  | none => exact .ok ⟨h, rfl⟩
  | some engine =>
    refine Sim.bind_same _ fun x => ?_
    obtain ⟨r, engine'⟩ := x
    cases r with
    | error e => exact .ok ⟨h.setSpot engine', rfl⟩
    | ok y =>
      obtain ⟨order, fills⟩ := y
      refine (Sim.foldlM fills (h.setSpot engine') fun f _ s t h => h.recordSpotFill f).bind ?_
      intro s' t' h'
      exact .ok ⟨h'.recordPlaced _ _ _ _ _ _, rfl⟩

theorem batchPerpOrder (h : Batches b c) (a : AccountAddress) (m : MarketId) (q : OrderRequest)
    (time : Timestamp) :
    Sim Batches (AppState.batchPerpOrder b a m q time) (AppState.batchPerpOrder c a m q time) := by
  obtain ⟨h, hc⟩ := h
  rw [hc]
  unfold AppState.batchPerpOrder
  dsimp only
  rw [h.perp_eq]
  cases b.app.perp with
  | none => exact .ok ⟨h, rfl⟩
  | some engine =>
    refine Sim.bind_same _ fun x => ?_
    obtain ⟨r, engine'⟩ := x
    cases r with
    | error e => exact .ok ⟨h.setPerp engine', rfl⟩
    | ok y =>
      obtain ⟨order, fills⟩ := y
      refine (Sim.foldlM fills (h.setPerp engine') fun f _ s t h => h.recordPerpFill f).bind ?_
      intro s' t' h'
      exact .ok ⟨h'.recordPlaced _ _ _ _ _ _, rfl⟩

theorem finishBatch (h : Batches b c) (a : AccountAddress) :
    Answers (AppState.finishBatch b a) (AppState.finishBatch c a) := by
  obtain ⟨h, hc⟩ := h
  rw [hc]
  refine ⟨rfl, foldl (fun i h => h.removeCloidByOrder i.1 i.2) _ (foldl (fun i h => ?_) _ h)⟩
  exact h.registerCloid a i.1 i.2.1 i.2.2

theorem runOrders (h : Batches b c) (a : AccountAddress) (time : Timestamp)
    (wires : List OrderWire) :
    Sim Answers (AppState.runOrders a time wires b) (AppState.runOrders a time wires c) := by
  induction wires generalizing b c with
  | nil => exact .ok (finishBatch h a)
  | cons wire wires ih =>
    unfold AppState.runOrders batchOrder
    cases wire.toOrderRequest with
    | error e => exact .ok ⟨rfl, h.1⟩
    | ok q =>
      dsimp only
      rw [bind_assoc, bind_assoc]
      refine Sim.bind (R := Batches) ?_ fun b' c' h' => ih h'
      split
      · exact batchSpotOrder h a _ _ _
      · exact batchPerpOrder h a _ _ _

/-! ### Cancellations -/

/-- Batches of cancellations that differ at most in the application. -/
def Cancels (b c : CancelBatch) : Prop :=
  ReadsAlike b.app c.app ∧ c = { b with app := c.app }

theorem cancelInEngine (h : ReadsAlike s t) (a : AccountAddress) (m : MarketId) (i : OrderId) :
    Sim Answers (s.cancelInEngine a m i) (t.cancelInEngine a m i) := by
  unfold AppState.cancelInEngine
  rw [h.perp_eq, h.spot_eq]
  split
  · cases s.spot with
    | none => exact .ok ⟨rfl, h⟩
    | some engine => exact Sim.bind_same _ fun x => .ok ⟨rfl, h.setSpot _⟩
  · cases s.perp with
    | none => exact .ok ⟨rfl, h⟩
    | some engine => exact .ok ⟨rfl, h.setPerp _⟩

theorem batchCancel {b c : CancelBatch} (h : Cancels b c) (a : AccountAddress)
    (cancel : CancelWire) :
    Sim Cancels (AppState.batchCancel a b cancel) (AppState.batchCancel a c cancel) := by
  obtain ⟨h, hc⟩ := h
  rw [hc]
  refine (h.cancelInEngine a cancel.a cancel.o).bind ?_
  rintro ⟨r, s'⟩ ⟨_, t'⟩ ⟨rfl, h'⟩
  rcases r with - | (e | order)
  · dsimp only
    split <;> exact .ok ⟨h, rfl⟩
  · exact .ok ⟨h', rfl⟩
  · exact .ok ⟨h', rfl⟩

theorem batchCancelByCloid {b c : CancelBatch} (h : Cancels b c) (a : AccountAddress)
    (cancel : CancelByCloidWire) : Sim Cancels (AppState.batchCancelByCloid a b cancel)
      (AppState.batchCancelByCloid a c cancel) := by
  obtain ⟨h, hc⟩ := h
  have hcloid : c.app.getOrderByCloid a cancel.cloid = b.app.getOrderByCloid a cancel.cloid := by
    obtain ⟨p, q, happ, -, -⟩ := h
    rw [happ]
    rfl
  rw [hc]
  unfold AppState.batchCancelByCloid
  dsimp only
  rw [hcloid]
  cases b.app.getOrderByCloid a cancel.cloid with
  | none => exact .ok ⟨h, rfl⟩
  | some place =>
    refine Sim.ite (fun _ => .ok ⟨h, rfl⟩) fun _ => ?_
    refine (h.cancelInEngine a place.1 place.2).bind ?_
    rintro ⟨r, s'⟩ ⟨_, t'⟩ ⟨rfl, h'⟩
    rcases r with - | (e | order)
    · exact .ok ⟨h, rfl⟩
    · exact .ok ⟨h', rfl⟩
    · exact .ok ⟨h', rfl⟩

theorem removeCloids (h : ReadsAlike s t) (a : AccountAddress) (cloids : List ClientOrderId) :
    ReadsAlike (s.removeCloids a cloids) (t.removeCloids a cloids) :=
  foldl (fun i h => h.removeCloid a i) cloids h

theorem finishCancels {b c : CancelBatch} (h : Cancels b c) (a : AccountAddress) :
    Answers ((.ok b.events, b.app.removeCloids a b.cloidsToRemove) : Handled)
      (.ok c.events, c.app.removeCloids a c.cloidsToRemove) := by
  obtain ⟨h, hc⟩ := h
  rw [hc]
  exact ⟨rfl, h.removeCloids a _⟩

theorem executeCancels (h : ReadsAlike s t) (a : AccountAddress) (cancels : List CancelWire) :
    Sim Answers (s.executeCancels a cancels) (t.executeCancels a cancels) := by
  have hstart : Cancels ⟨s, [], []⟩ ⟨t, [], []⟩ := ⟨h, rfl⟩
  exact (Sim.foldlM cancels hstart fun cancel _ _ _ h => batchCancel h a cancel).bind
    fun b c h => .ok (finishCancels h a)

theorem executeCancelByCloid (h : ReadsAlike s t) (a : AccountAddress)
    (cancels : List CancelByCloidWire) :
    Sim Answers (s.executeCancelByCloid a cancels) (t.executeCancelByCloid a cancels) := by
  have hstart : Cancels ⟨s, [], []⟩ ⟨t, [], []⟩ := ⟨h, rfl⟩
  exact (Sim.foldlM cancels hstart fun cancel _ _ _ h => batchCancelByCloid h a cancel).bind
    fun b c h => .ok (finishCancels h a)

theorem cancelSpotMarkets (h : ReadsAlike s t) (a : AccountAddress) (ms : List MarketId) :
    Sim Answers (AppState.cancelSpotMarkets a ms s) (AppState.cancelSpotMarkets a ms t) := by
  induction ms generalizing s t with
  | nil => exact .ok ⟨rfl, h⟩
  | cons m ms ih =>
    unfold AppState.cancelSpotMarkets
    rw [h.spot_eq]
    cases s.spot with
    | none => exact .ok ⟨rfl, h⟩
    | some engine =>
      refine Sim.bind_same _ fun x => (ih (h.setSpot x.2)).bind ?_
      rintro ⟨rest, s'⟩ ⟨_, t'⟩ ⟨rfl, h'⟩
      exact .ok ⟨rfl, h'⟩

theorem cancelPerpMarkets (h : ReadsAlike s t) (a : AccountAddress) (ms : List MarketId) :
    Answers (AppState.cancelPerpMarkets a ms s) (AppState.cancelPerpMarkets a ms t) := by
  induction ms generalizing s t with
  | nil => exact ⟨rfl, h⟩
  | cons m ms ih =>
    unfold AppState.cancelPerpMarkets
    rw [h.perp_eq]
    cases s.perp with
    | none => exact ⟨rfl, h⟩
    | some engine =>
      obtain ⟨hrest, h'⟩ := ih (h.setPerp (engine.cancelAllOrders a m).2)
      dsimp only
      cases (engine.cancelAllOrders a m).1 with
      | error e => exact ⟨hrest, h'⟩
      | ok canceled => exact ⟨congrArg (canceled ++ ·) hrest, h'⟩

theorem spotMarketIds (h : ReadsAlike s t) : t.spotMarketIds = s.spotMarketIds := by
  unfold AppState.spotMarketIds
  rw [h.spot_eq]

theorem perpMarketIds (h : ReadsAlike s t) : t.perpMarketIds = s.perpMarketIds := by
  unfold AppState.perpMarketIds
  rw [h.perp_eq]

theorem executeCancelAll (h : ReadsAlike s t) (a : AccountAddress) :
    Sim Answers (s.executeCancelAll a) (t.executeCancelAll a) := by
  unfold AppState.executeCancelAll
  rw [h.spotMarketIds]
  refine (h.cancelSpotMarkets a s.spotMarketIds).bind ?_
  rintro ⟨canceled, s'⟩ ⟨_, t'⟩ ⟨rfl, h⟩
  dsimp only
  rw [h.perpMarketIds]
  obtain ⟨hcanceled, h'⟩ := h.cancelPerpMarkets a s'.perpMarketIds
  rw [← hcanceled]
  exact .ok ⟨rfl, h'.removeCloids a _⟩

theorem executeSpotCancelAll (h : ReadsAlike s t) (a : AccountAddress)
    (market : Option MarketId) :
    Sim Answers (s.executeSpotCancelAll a market) (t.executeSpotCancelAll a market) := by
  unfold AppState.executeSpotCancelAll
  rw [h.spotMarketIds]
  refine (h.cancelSpotMarkets a _).bind ?_
  rintro ⟨canceled, s'⟩ ⟨_, t'⟩ ⟨rfl, h⟩
  exact .ok ⟨rfl, h⟩

/-! ### Balances and settings -/

theorem executeViewTransfer (h : ReadsAlike s t) (a : AccountAddress) (token : TokenIndex)
    (amount : String) (toEvm : Bool) :
    Sim Answers (s.executeViewTransfer a token amount toEvm)
      (t.executeViewTransfer a token amount toEvm) := by
  unfold AppState.executeViewTransfer
  rw [h.spot_eq]
  split
  · exact .ok ⟨rfl, h⟩
  · split
    · exact .ok ⟨rfl, h⟩
    · split
      · exact .ok ⟨rfl, h⟩
      · refine Sim.bind_same _ fun x => ?_
        obtain ⟨r, engine⟩ := x
        cases r <;> exact .ok ⟨rfl, h.setSpot engine⟩

theorem executeUsdTransfer (h : ReadsAlike s t) (a b : AccountAddress) (amount : String) :
    Sim Answers (s.executeUsdTransfer a b amount) (t.executeUsdTransfer a b amount) := by
  unfold AppState.executeUsdTransfer
  rw [← h.unifiedState]
  split
  · exact .ok ⟨rfl, h⟩
  · refine Sim.ite (fun _ => .ok ⟨rfl, h⟩) fun _ => Sim.bind_same _ fun x => ?_
    obtain ⟨done, u⟩ := x
    cases done <;> exact .ok ⟨rfl, h.setUnified u⟩

theorem executeWithdraw (h : ReadsAlike s t) (a b : AccountAddress) (amount : String) :
    Sim Answers (s.executeWithdraw a b amount) (t.executeWithdraw a b amount) := by
  unfold AppState.executeWithdraw
  rw [← h.unifiedState]
  split
  · exact .ok ⟨rfl, h⟩
  · refine Sim.bind_same _ fun x => ?_
    obtain ⟨done, u⟩ := x
    cases done <;> exact .ok ⟨rfl, h.setUnified u⟩

theorem executeEvmAction (h : ReadsAlike s t) (a : AccountAddress) (actionType : UInt8)
    (data : List UInt8) :
    Sim Answers (s.executeEvmAction a actionType data) (t.executeEvmAction a actionType data) := by
  have hmove : ∀ token amount, Sim Answers (s.executeEvmMove a actionType token amount)
      (t.executeEvmMove a actionType token amount) := by
    intro token amount
    unfold AppState.executeEvmMove
    rw [← h.unifiedState]
    refine Sim.ite (fun _ => ?_) fun _ => Sim.ite (fun _ => ?_) fun _ => .ok ⟨rfl, h⟩
    all_goals
      refine Sim.bind_same _ fun x => ?_
      obtain ⟨r, u⟩ := x
      cases r <;> exact .ok ⟨rfl, h.setUnified u⟩
  unfold AppState.executeEvmAction
  refine Sim.ite (fun _ => Sim.bind_same _ fun amount => hmove _ amount) fun _ => ?_
  exact Sim.ite (fun _ => .ok ⟨rfl, h⟩) fun _ => .ok ⟨rfl, h⟩

theorem executeUpdateLeverage (h : ReadsAlike s t) (a : AccountAddress) (m : MarketId)
    (leverage : UInt8) :
    Sim Answers (s.executeUpdateLeverage a m leverage) (t.executeUpdateLeverage a m leverage) := by
  unfold AppState.executeUpdateLeverage
  rw [h.perp_eq]
  split
  · refine .ok ⟨rfl, ?_⟩
    exact h.update (f := fun s => { s with engine := s.engine.setLeverage a m leverage })
      (fun _ _ _ => rfl) fun _ => rfl
  · refine Sim.bind_same _ fun x => ?_
    obtain ⟨r, engine⟩ := x
    cases r <;> exact .ok ⟨rfl, h.setPerp engine⟩

theorem executeSetMarginMode (h : ReadsAlike s t) (a : AccountAddress) (mode : MarginMode) :
    Answers (s.executeSetMarginMode a mode) (t.executeSetMarginMode a mode) := by
  unfold AppState.executeSetMarginMode
  rw [h.perp_eq]
  split
  · exact ⟨rfl, h⟩
  · dsimp only
    split <;> exact ⟨rfl, h.setPerp _⟩

theorem executeCancelTrigger (h : ReadsAlike s t) (a : AccountAddress) (i : OrderId) :
    Answers (s.executeCancelTrigger a i) (t.executeCancelTrigger a i) := by
  unfold AppState.executeCancelTrigger
  rw [h.perp_eq]
  split
  · exact ⟨rfl, h⟩
  · dsimp only
    split <;> exact ⟨rfl, h.setPerp _⟩

/-! ### Transactions and blocks -/

theorem executeAction (h : ReadsAlike s t) (a : AccountAddress) (time : Timestamp)
    (action : TransactionType) :
    Sim Answers (s.executeAction a time action) (t.executeAction a time action) := by
  have hstart : Batches ⟨s, [], [], []⟩ ⟨t, [], [], []⟩ := ⟨h, rfl⟩
  cases action with
  | order orders | spotOrder orders => exact runOrders hstart a time orders
  | cancel cancels => exact h.executeCancels a cancels
  | cancelByCloid cancels => exact h.executeCancelByCloid a cancels
  | cancelAll => exact h.executeCancelAll a
  | updateLeverage m leverage => exact h.executeUpdateLeverage a m leverage
  | usdTransfer b amount => exact h.executeUsdTransfer a b amount
  | withdraw b amount => exact h.executeWithdraw a b amount
  | evmAction actionType data => exact h.executeEvmAction a actionType data
  | spotCancelAll market => exact h.executeSpotCancelAll a market
  | viewTransfer token amount toEvm => exact h.executeViewTransfer a token amount toEvm
  | setMarginMode mode => exact .ok (h.executeSetMarginMode a mode)
  | cancelTrigger m i => exact .ok (h.executeCancelTrigger a i)

theorem executeTx (h : ReadsAlike s t) (tx : Transaction) (time : Timestamp) :
    Sim Answers (s.executeTx tx time) (t.executeTx tx time) := by
  have hvalid : t.validateTx tx time = s.validateTx tx time := by
    obtain ⟨p, q, rfl, -, -⟩ := h
    rfl
  unfold AppState.executeTx
  rw [hvalid]
  split
  · exact .ok ⟨rfl, h⟩
  · split
    · exact .ok ⟨rfl, h⟩
    · refine (h.executeAction _ time tx.action).bind ?_
      rintro ⟨r, s'⟩ ⟨_, t'⟩ ⟨rfl, h'⟩
      cases r with
      | error e => exact .ok ⟨rfl, h'⟩
      | ok events =>
        exact (h'.incrementNonce _).bind fun s'' t'' h'' => .ok ⟨rfl, h''.updateTimestampNonce _ _⟩

theorem beginBlock (h : ReadsAlike s t) (height : BlockHeight) (time : Timestamp) :
    ReadsAlike (s.beginBlock height time) (t.beginBlock height time) :=
  h.update (f := fun s => s.beginBlock height time) (fun _ _ _ => rfl) fun _ => rfl

theorem upkeep (h : ReadsAlike s t) (ord : HashOrder) :
    Sim Answers (AppState.upkeep ord s) (AppState.upkeep ord t) := by
  have hprices : t.legacyPrices = s.legacyPrices := by
    obtain ⟨p, q, rfl, -, -⟩ := h
    rfl
  have htime : t.timestamp = s.timestamp := by
    obtain ⟨p, q, rfl, -, -⟩ := h
    rfl
  unfold AppState.upkeep
  rw [h.perp_eq]
  split
  · exact .ok ⟨rfl, h⟩
  · rw [htime, hprices]
    exact Sim.bind_same _ fun x => Sim.bind_same _ fun y => .ok ⟨rfl, h.setPerp y.2⟩

/-- What is committed to of the perp engine is not its balance sheet. -/
theorem committedEngine (h : ReadsAlike s t) : t.committedEngine = s.committedEngine := by
  obtain ⟨p, q, rfl, hp, -⟩ := h
  have hstate := congrArg (Option.map fun e : Engine => e.state) hp
  unfold perp withEngines at hstate
  simp only [Option.map_map, Function.comp_def] at hstate
  unfold AppState.committedEngine withEngines
  dsimp only
  cases p <;> cases hs : s.perpEngine <;> simp_all

theorem hashInputs (h : ReadsAlike s t) : t.hashInputs = s.hashInputs := by
  have hengine := h.committedEngine
  obtain ⟨p, q, rfl, -, -⟩ := h
  unfold AppState.hashInputs
  rw [hengine]
  rfl

theorem endBlock (h : ReadsAlike s t) : ReadsAlike s.endBlock t.endBlock := by
  have hash : t.computeAppHash = s.computeAppHash := by
    have hinputs := h.hashInputs
    obtain ⟨p, q, rfl, -, -⟩ := h
    exact congrArg (· :: s.appHash) hinputs
  obtain ⟨p, q, rfl, hp, hq⟩ := h
  refine ⟨p, q, ?_, hp, hq⟩
  unfold AppState.endBlock
  rw [hash]
  rfl

theorem storeBlock (h : ReadsAlike s t) (events : List BlockEvent) :
    ReadsAlike (s.storeBlock events) (t.storeBlock events) :=
  h.update (f := fun s => s.storeBlock events) (fun _ _ _ => rfl) fun _ => rfl

theorem recordEvents (h : ReadsAlike s t) (events : List BlockEvent) :
    ReadsAlike
      { s with blockEvents := s.blockEvents.insert s.height events, pendingBlockEvents := [] }
      { t with blockEvents := t.blockEvents.insert t.height events, pendingBlockEvents := [] } :=
  h.update (f := fun s => { s with
    blockEvents := s.blockEvents.insert s.height events
    pendingBlockEvents := [] }) (fun _ _ _ => rfl) fun _ => rfl

theorem finishBlock (h : ReadsAlike s t) (ord : HashOrder) :
    Sim ReadsAlike (AppState.finishBlock ord s) (AppState.finishBlock ord t) := by
  refine (h.upkeep ord).bind ?_
  rintro ⟨events, s'⟩ ⟨_, t'⟩ ⟨rfl, h'⟩
  have hpending : t'.pendingBlockEvents = s'.pendingBlockEvents := by
    obtain ⟨p, q, rfl, -, -⟩ := h'
    rfl
  dsimp only
  rw [hpending]
  exact .ok ((h'.recordEvents _).endBlock.storeBlock _)

end ReadsAlike

/-! ### What follows -/

/-- What a node answers to a sequence of operations: the result of every transaction, and the
app hash at the end. -/
def answers : List AppOp → AppState → Exec (List (Except AppError TxResult) × AppHash)
  | [], s => return ([], s.appHash)
  | .tx tx t :: ops, s => do
    let (r, s) ← s.executeTx tx t
    let (rs, hash) ← answers ops s
    return (r :: rs, hash)
  | .beginBlock height t :: ops, s => answers ops (s.beginBlock height t)
  | .endBlock ord :: ops, s => do answers ops (← finishBlock ord s)

/-- States that read alike give the same answers from there on. -/
theorem ReadsAlike.answers {s t : AppState} (h : ReadsAlike s t) (ops : List AppOp) :
    AppState.answers ops s = AppState.answers ops t := by
  induction ops generalizing s t with
  | nil =>
    obtain ⟨p, q, rfl, -, -⟩ := h
    rfl
  | cons op ops ih =>
    cases op with
    | tx tx time =>
      have hsim : Sim Eq (AppState.answers (.tx tx time :: ops) s)
          (AppState.answers (.tx tx time :: ops) t) := by
        refine (h.executeTx tx time).bind ?_
        rintro ⟨r, s'⟩ ⟨_, t'⟩ ⟨rfl, h'⟩
        dsimp only
        rw [ih h']
        exact Sim.bind_same _ fun x => .ok rfl
      simpa using hsim.map_eq (f := id) (g := id)
    | beginBlock height time => exact ih (h.beginBlock height time)
    | endBlock ord =>
      have hsim : Sim Eq (AppState.answers (.endBlock ord :: ops) s)
          (AppState.answers (.endBlock ord :: ops) t) := by
        refine (h.finishBlock ord).bind fun s' t' h' => ?_
        rw [ih h']
        exact .refl (fun _ => rfl) _
      simpa using hsim.map_eq (f := id) (g := id)

/-! ### Failed actions -/

section Failed

variable {s s' : AppState} {a : AccountAddress} {t : Timestamp} {err : AppError}

/-- An engine that a call leaves as it was is put back. -/
theorem readsAlike_putPerp {e : Engine} (h : s.perp = some e) : ReadsAlike s (s.setPerp e) := by
  obtain ⟨p, hp, rfl⟩ := Option.map_eq_some_iff.mp h
  refine ⟨some { p with unifiedState := p.unifiedState.map fun _ => s.unifiedState },
    s.spotEngine, ?_, ?_, ?_⟩
  all_goals
    cases hu : p.unifiedState <;> simp [setPerp, withEngines, perp, spot, hp, hu]

theorem readsAlike_putSpot {e : SpotEngineState} (h : s.spot = some e) :
    ReadsAlike s (s.setSpot e) := by
  obtain ⟨q, hq, rfl⟩ := Option.map_eq_some_iff.mp h
  exact ⟨s.perpEngine, some { q with unifiedState := s.unifiedState }, rfl, rfl, by
    simp [setSpot, spot, hq]⟩

/-- A trigger order that is not found was not indexed. -/
theorem removeTriggerOrder_missing {e e' : EngineState} {i : OrderId} (he : e.TriggersAgree)
    (h : e.removeTriggerOrder i = (none, e')) : e' = e := by
  cases hix : e.triggerOrderIndex[i]? with
  | none =>
    unfold EngineState.removeTriggerOrder at h
    rw [hix] at h
    exact (Prod.mk.inj h).2.symm
  | some place =>
    obtain ⟨maps, hremoved, -⟩ := e.removeTriggerOrder_view i
    obtain ⟨o, ho, hid⟩ := he.found i place.1 place.2.1 place.2.2 hix
    rw [h, hix] at hremoved
    have hnone := List.find?_eq_none.mp hremoved.symm o ho
    exact absurd (decide_eq_true hid) hnone

/-- What an action does that fails. -/
theorem updateLeverage_fails (hs : s.Leads) {m : MarketId} {l : UInt8}
    (h : s.executeUpdateLeverage a m l = .ok (.error err, s')) : ReadsAlike s s' := by
  unfold executeUpdateLeverage at h
  split at h
  · cases (pair_inv h).1
  · rename_i e he
    obtain ⟨⟨r, e'⟩, h1, h⟩ := bind_inv h
    cases r with
    | ok _ => cases (pair_inv h).1
    | error r =>
      obtain ⟨-, rfl⟩ := pair_inv h
      have hwf := (hs.perp_leads he).reachable.positionsWF
      rcases Engine.updateLeverage_cases hwf h1 with ⟨-, -, rfl⟩ | ⟨-, hok, -⟩
      · exact readsAlike_putPerp he
      · cases hok

theorem setMarginMode_fails {mode : MarginMode}
    (h : s.executeSetMarginMode a mode = (.error err, s')) : ReadsAlike s s' := by
  unfold executeSetMarginMode at h
  split at h
  · cases (Prod.mk.inj h).1
  · rename_i e he
    dsimp only at h
    cases hset : e.setMarginMode a mode with
    | mk r e' =>
      rw [hset] at h
      cases r with
      | ok _ => cases (Prod.mk.inj h).1
      | error r =>
        obtain ⟨-, rfl⟩ := Prod.mk.inj h
        unfold Engine.setMarginMode at hset
        split at hset
        · obtain ⟨-, rfl⟩ := Prod.mk.inj hset
          exact readsAlike_putPerp he
        · cases (Prod.mk.inj hset).1

theorem cancelTrigger_fails (hs : s.Leads) {i : OrderId}
    (h : s.executeCancelTrigger a i = (.error err, s')) : ReadsAlike s s' := by
  unfold executeCancelTrigger at h
  split at h
  · cases (Prod.mk.inj h).1
  · rename_i e he
    obtain ⟨D, -, hrep, -⟩ := Engine.reachable_represents (hs.perp_leads he).reachable
    dsimp only at h
    split at h
    · rename_i hnone
      obtain ⟨-, rfl⟩ := Prod.mk.inj h
      have hsame : (e.state.removeTriggerOrder i).2 = e.state :=
        removeTriggerOrder_missing hrep.agree (Prod.ext hnone rfl)
      rw [hsame]
      exact readsAlike_putPerp he
    · cases (Prod.mk.inj h).1

theorem viewTransfer_fails {token : TokenIndex} {amount : String} {toEvm : Bool}
    (h : s.executeViewTransfer a token amount toEvm = .ok (.error err, s')) :
    ReadsAlike s s' := by
  unfold executeViewTransfer at h
  split at h
  · obtain ⟨-, rfl⟩ := pair_inv h
    exact .refl s
  · rename_i e he
    split at h
    · obtain ⟨-, rfl⟩ := pair_inv h
      exact .refl s
    · split at h
      · obtain ⟨-, rfl⟩ := pair_inv h
        exact .refl s
      · obtain ⟨⟨r, e'⟩, h1, h⟩ := bind_inv h
        cases r with
        | ok _ => cases (pair_inv h).1
        | error r =>
          obtain ⟨-, rfl⟩ := pair_inv h
          rw [(SpotEngineState.viewTransfer_supply h1).2 ⟨r, rfl⟩]
          exact readsAlike_putSpot he

theorem evmAction_fails {actionType : UInt8} {data : List UInt8}
    (h : s.executeEvmAction a actionType data = .ok (.error err, s')) : s' = s := by
  unfold executeEvmAction at h
  split at h
  · obtain ⟨amount, -, h⟩ := bind_inv h
    unfold executeEvmMove at h
    split at h
    · obtain ⟨⟨r, u⟩, hu, h⟩ := bind_inv h
      cases r with
      | ok _ => cases (pair_inv h).1
      | error r =>
        obtain ⟨-, rfl⟩ := pair_inv h
        rw [(UnifiedState.transferToCoreView_moves hu).refused]
        rfl
    · split at h
      · obtain ⟨⟨r, u⟩, hu, h⟩ := bind_inv h
        cases r with
        | ok _ => cases (pair_inv h).1
        | error r =>
          obtain ⟨-, rfl⟩ := pair_inv h
          rw [(UnifiedState.transferToEvmView_moves hu).refused]
          rfl
      · cases (pair_inv h).1
  · split at h
    · cases (pair_inv h).1
    · exact (pair_inv h).2.symm

/-- One request of a batch, in the engine of its market. -/
def batchRequest (a : AccountAddress) (t : Timestamp) (b : OrderBatch) (q : OrderRequest) :
    Exec OrderBatch :=
  if 128 ≤ q.marketId then batchSpotOrder b a q.marketId q t
  else batchPerpOrder b a q.marketId q t

/-- A batch that an order cut short: exactly the orders before it are executed. -/
def CutShort (s : AppState) (a : AccountAddress) (t : Timestamp) (orders : List OrderWire)
    (err : AppError) (s' : AppState) : Prop :=
  ∃ e b, (readOrders orders).2 = some e ∧ err = .txError e ∧
    (readOrders orders).1.foldlM (batchRequest a t) ⟨s, [], [], []⟩ = .ok b ∧ s' = b.app

theorem runRequests_fails {e : Option TransactionError} {qs : List OrderRequest} {b : OrderBatch}
    (h : runRequests a t e qs b = .ok (.error err, s')) :
    ∃ e' b', e = some e' ∧ err = .txError e' ∧ qs.foldlM (batchRequest a t) b = .ok b' ∧
      s' = b'.app := by
  induction qs generalizing b with
  | nil =>
    cases e with
    | none => cases (pair_inv h).1
    | some e =>
      obtain ⟨herr, rfl⟩ := pair_inv h
      exact ⟨e, b, rfl, (Except.error.inj herr).symm, rfl, rfl⟩
  | cons q qs ih =>
    obtain ⟨b₁, h1, h⟩ := bind_inv h
    obtain ⟨e', b', he, herr, hrest, hs'⟩ := ih h
    exact ⟨e', b', he, herr, bind_eq_ok.mpr ⟨b₁, h1, hrest⟩, hs'⟩

theorem executeOrders_fails {orders : List OrderWire}
    (h : s.executeOrders a orders t = .ok (.error err, s')) : CutShort s a t orders err s' := by
  unfold executeOrders at h
  rw [runOrders_eq] at h
  exact runRequests_fails h

/-- An action that fails has done nothing that can be read, or is a batch cut short. -/
theorem executeAction_fails (hs : s.Leads) {action : TransactionType}
    (h : s.executeAction a t action = .ok (.error err, s')) :
    ReadsAlike s s' ∨ CutShort s a t action.orders err s' := by
  cases action with
  | order orders | spotOrder orders => exact .inr (executeOrders_fails h)
  | cancel | cancelByCloid =>
    obtain ⟨b, -, h⟩ := bind_inv h
    cases (pair_inv h).1
  | cancelAll | spotCancelAll =>
    obtain ⟨b, -, h⟩ := bind_inv h
    cases (pair_inv h).1
  | updateLeverage => exact .inl (updateLeverage_fails hs h)
  | setMarginMode => exact .inl (setMarginMode_fails (pure_inv h))
  | cancelTrigger => exact .inl (cancelTrigger_fails hs (pure_inv h))
  | viewTransfer => exact .inl (viewTransfer_fails h)
  | usdTransfer =>
    rw [Gateway.usdTransfer_error h]
    exact .inl (.refl s)
  | withdraw =>
    rw [Gateway.withdraw_error h]
    exact .inl (.refl s)
  | evmAction =>
    rw [evmAction_fails h]
    exact .inl (.refl s)

end Failed

section Result

variable {s s' : AppState} {tx : Transaction} {t : Timestamp} {err : AppError}

/-- **Failure.** A transaction that fails spends no nonce. The node goes on to answer every
sequence of operations as if the transaction had not been there; or it was a batch with an order
that cannot be read, and exactly the orders before that one are executed. -/
theorem failed_tx_unseen (hs : s.Reachable) (h : s.executeTx tx t = .ok (.error err, s')) :
    (s'.nonces = s.nonces ∧ s'.lastTimestampNonces = s.lastTimestampNonces) ∧
      ((∀ ops, answers ops s' = answers ops s) ∨
        ∃ a, tx.signer = some a ∧ CutShort s a t tx.action.orders err s') := by
  refine ⟨executeTx_failed_nonces h, ?_⟩
  rcases executeTx_cases h with ⟨rfl, -⟩ | ⟨a, ra, s₁, ha, -, hact, hend⟩
  · exact .inl fun ops => rfl
  · rcases hend with ⟨e, rfl, he, rfl⟩ | ⟨events, s₂, -, he, -⟩
    · obtain rfl := Except.error.inj he
      rcases executeAction_fails hs.leads hact with halike | hcut
      · exact .inl fun ops => (halike.answers ops).symm
      · exact .inr ⟨a, ha, hcut⟩
    · cases he

/-- Account 1 cancels a trigger order that is not there. -/
def missingTrigger : Transaction where
  action := .cancelTrigger 0 7
  nonce := 0
  signer := some 1

/-- A missing trigger order. -/
theorem missing_trigger_unseen : ∃ s s' err, Reachable s ∧
    s.executeTx missingTrigger 0 = .ok (.error err, s') ∧
    ∀ ops, answers ops s' = answers ops s := by
  obtain ⟨s, hs, htest⟩ := exists_of_test (x := nodeRun spotGenesis [])
    (p := fun s => decide (((fun x => x.1.isOk) <$> s.executeTx missingTrigger 0) = .ok false))
    (by decide +kernel)
  obtain ⟨⟨r, s'⟩, htx, hr⟩ := map_eq_ok.mp (of_decide_eq_true htest)
  cases r with
  | ok x => cases hr
  | error err =>
    have hreach := nodeRun_reachable spotGenesis_nonneg hs
    refine ⟨s, s', err, hreach, htx, ?_⟩
    rcases (failed_tx_unseen hreach htx).2 with hall | ⟨a, -, e, b, hnone, -⟩
    · exact hall
    · cases hnone

end Result

end AppState

end Hypercore
