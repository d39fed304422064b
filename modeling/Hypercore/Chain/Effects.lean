import Hypercore.Chain.App
import Hypercore.Lib.Run
/-!
# Hypercore.Chain.Effects

What an action can do to the application state, one *effect* at a time.

Every handler is a sequence of calls into one of the engines or the balance
sheet, with bookkeeping in between. An effect is one such call, and
`executeAction_reaches` says once for all handlers that executing an action is a
run of effects. What every effect preserves is then preserved by every action.

A condition `G` on states and effects singles out the runs whose calls all meet
it. `ActionMeets G` says so of an action; effects that move no balance and place
no order are *free* and meet every condition used here.
-/

namespace Hypercore

open Exec Int128

/-- One elementary change of the application state. -/
inductive Effect
  | spotOrder (marketId : MarketId) (request : OrderRequest) (timestamp : Timestamp)
  | perpOrder (request : OrderRequest) (timestamp : Timestamp)
  | spotCancel (marketId : MarketId) (orderId : OrderId)
  | spotCancelAll (marketId : MarketId)
  | perpCancel (marketId : MarketId) (orderId : OrderId)
  | perpCancelAll (marketId : MarketId)
  | updateLeverage (asset : MarketId) (leverage : UInt8)
  | setMarginMode (mode : MarginMode)
  | cancelTrigger (orderId : OrderId)
  | viewTransfer (token : TokenIndex) (amount : Decimal) (toEvm : Bool)
  | usdTransfer (destination : AccountAddress) (amount : Decimal)
  | withdraw (amount : Decimal)
  | evmMove (token : TokenIndex) (amount : Decimal) (toEvm : Bool)
  /-- New client order id maps, pending events and trade id counter. -/
  | bookkeeping (cloidToOid : FinMap (PairKey AccountAddress ClientOrderId) (MarketId × OrderId))
      (oidToCloid : FinMap (PairKey MarketId OrderId) (AccountAddress × ClientOrderId))
      (pending : List BlockEvent) (nextTradeId : Nat)

/-- Effects that move no balance and place no order. -/
def Effect.free : Effect → Bool
  | spotCancel .. | spotCancelAll .. | perpCancel .. | perpCancelAll .. | updateLeverage ..
  | setMarginMode .. | cancelTrigger .. | bookkeeping .. => true
  | _ => false

namespace AppState

/-- Call the spot engine, if there is one. -/
def onSpot (s : AppState) (f : SpotEngineState → Exec SpotEngineState) : Exec AppState :=
  match s.spot with
  | none => return s
  | some engine => do
    let engine ← f engine
    return s.setSpot engine

/-- Call the perp engine, if there is one. -/
def onPerp (s : AppState) (f : Engine → Exec Engine) : Exec AppState :=
  match s.perp with
  | none => return s
  | some engine => do
    let engine ← f engine
    return s.setPerp engine

/-- Change the balance sheet. -/
def onUnified (s : AppState) (f : UnifiedState → Exec UnifiedState) : Exec AppState := do
  let u ← f s.unifiedState
  return s.setUnified u

/-- An effect on behalf of a sender. Results are dropped; the state is kept. -/
def applyEffect (sender : AccountAddress) : Effect → AppState → Exec AppState
  | .spotOrder m r t, s => s.onSpot fun e => return (← e.placeOrder sender m r t).2
  | .perpOrder r t, s => s.onPerp fun e => return (← e.placeOrder sender r t).2
  | .spotCancel m i, s => s.onSpot fun e => return (← e.cancelOrder sender m i).2
  | .spotCancelAll m, s => s.onSpot fun e => return (← e.cancelAllOrders sender m).2
  | .perpCancel m i, s => s.onPerp fun e => return (e.cancelOrder sender m i).2
  | .perpCancelAll m, s => s.onPerp fun e => return (e.cancelAllOrders sender m).2
  | .updateLeverage m l, s =>
    match s.perp with
    | none => return { s with engine := s.engine.setLeverage sender m l }
    | some _ => s.onPerp fun e => return (← e.updateLeverage sender m l).2
  | .setMarginMode mode, s => s.onPerp fun e => return (e.setMarginMode sender mode).2
  | .cancelTrigger i, s =>
    s.onPerp fun e => return { e with state := (e.state.removeTriggerOrder i).2 }
  | .viewTransfer k x toEvm, s => s.onSpot fun e => return (← e.viewTransfer sender k x toEvm).2
  | .usdTransfer d x, s => s.onUnified fun u => return (← u.transferCore sender d 0 x).2
  | .withdraw x, s => s.onUnified fun u => return (← u.debitCore sender 0 x).2
  | .evmMove k x toEvm, s => s.onUnified fun u =>
    if toEvm then return (← u.transferToEvmView sender k x).2
    else return (← u.transferToCoreView sender k x).2
  | .bookkeeping c o p n, s =>
    return { s with cloidToOid := c, oidToCloid := o, pendingBlockEvents := p, nextTradeId := n }

section Keeps

variable {β : Type} {f : AppState → β}

/-- What does not depend on the balance sheet, the engines and the bookkeeping is left alone by
every effect. -/
theorem applyEffect_keeps {s s' : AppState} {sender : AccountAddress} {i : Effect}
    (hengines : ∀ (s : AppState) unifiedState perpEngine engine spotEngine,
      f { s with unifiedState, perpEngine, engine, spotEngine } = f s)
    (hbookkeeping : ∀ (s : AppState) cloidToOid oidToCloid pendingBlockEvents nextTradeId,
      f { s with cloidToOid, oidToCloid, pendingBlockEvents, nextTradeId } = f s)
    (h : applyEffect sender i s = .ok s') : f s' = f s := by
  have hspot : ∀ {g s'}, s.onSpot g = .ok s' → f s' = f s := by
    intro g s' h
    unfold onSpot at h
    split at h
    · cases pure_inv h
      rfl
    · obtain ⟨e, -, h⟩ := bind_inv h
      cases pure_inv h
      exact hengines s _ _ _ _
  have hperp : ∀ {g s'}, s.onPerp g = .ok s' → f s' = f s := by
    intro g s' h
    unfold onPerp at h
    split at h
    · cases pure_inv h
      rfl
    · obtain ⟨e, -, h⟩ := bind_inv h
      cases pure_inv h
      exact hengines s _ _ _ _
  have hunified : ∀ {g s'}, s.onUnified g = .ok s' → f s' = f s := by
    intro g s' h
    obtain ⟨u, -, h⟩ := bind_inv h
    cases pure_inv h
    exact hengines s _ _ _ _
  cases i with
  | spotOrder | spotCancel | spotCancelAll | viewTransfer => exact hspot h
  | perpOrder | perpCancel | perpCancelAll | setMarginMode | cancelTrigger => exact hperp h
  | usdTransfer | withdraw | evmMove =>
    simp only [applyEffect] at h
    exact hunified h
  | updateLeverage m l =>
    simp only [applyEffect] at h
    split at h
    · cases pure_inv h
      exact hengines s _ _ _ _
    · exact hperp h
  | bookkeeping c o p k =>
    cases pure_inv h
    exact hbookkeeping s c o p k

end Keeps

/-! ### The condition on an action -/

/-- A condition on the state an effect is made in. -/
abbrev EffectCond := AppState → Effect → Prop

/-- The effect of an order of a batch. -/
def orderEffect (marketId : MarketId) (request : OrderRequest) (timestamp : Timestamp) :
    Effect :=
  if 128 ≤ marketId then .spotOrder marketId request timestamp else .perpOrder request timestamp

/-- Every order of a batch meets a condition, in the state the ones before it leave. -/
def BatchMeets (G : EffectCond) (sender : AccountAddress) (timestamp : Timestamp) :
    List OrderWire → OrderBatch → Prop
  | [], _ => True
  | wire :: wires, b =>
    (∀ request, wire.toOrderRequest = .ok request →
      G b.app (orderEffect wire.a request timestamp)) ∧
    ∀ b', batchOrder b sender wire timestamp = .ok (.ok b') →
      BatchMeets G sender timestamp wires b'

/-- The effect of an EVM action, if its data and type give one. -/
def evmEffect (actionType : UInt8) (data : List UInt8) : Exec (Option Effect) :=
  if 64 ≤ data.length then do
    let (token, raw) := evmPayload data
    let amount ← (⟨raw, 18⟩ : Decimal).toDecimals (if token = 0 then 6 else 18)
    if actionType = 0 ∨ actionType = 3 then return some (.evmMove token amount false)
    else if actionType = 1 ∨ actionType = 2 then return some (.evmMove token amount true)
    else return none
  else return none

/-- The decimal places of a token, as the spot engine has them. -/
def weiDecimals (s : AppState) (token : TokenIndex) : Option Nat :=
  (s.spot.bind (·.getToken token)).map (·.weiDecimals.toNat)

/-- The effects of an action that are not free meet a condition. -/
def ActionMeets (G : EffectCond) (s : AppState) (sender : AccountAddress)
    (timestamp : Timestamp) : TransactionType → Prop
  | .order orders | .spotOrder orders => BatchMeets G sender timestamp orders ⟨s, [], [], []⟩
  | .usdTransfer destination amount =>
    ∀ x, Decimal.fromStrExact amount.toList 6 = some x → G s (.usdTransfer destination x)
  | .withdraw _ amount =>
    ∀ x, Decimal.fromStrExact amount.toList 6 = some x → G s (.withdraw x)
  | .evmAction actionType data =>
    ∀ effect, evmEffect actionType data = .ok (some effect) → G s effect
  | .viewTransfer token amount toEvm =>
    ∀ k x, s.weiDecimals token = some k → Decimal.fromStrExact amount.toList k = some x →
      G s (.viewTransfer token x toEvm)
  | _ => True

/-! ### Actions are runs of effects -/

section Reach

variable {G : EffectCond} {sender : AccountAddress} {s s' : AppState}

/-- One effect, as a run. -/
theorem reach_one {i : Effect} (hG : G s i) (h : applyEffect sender i s = .ok s') :
    Run.Reaches (applyEffect sender) G s s' := .tail i .refl hG h

/-- A state that differs in the bookkeeping only. -/
def SameButBooks (s s' : AppState) : Prop :=
  s' = { s with
    cloidToOid := s'.cloidToOid
    oidToCloid := s'.oidToCloid
    pendingBlockEvents := s'.pendingBlockEvents
    nextTradeId := s'.nextTradeId }

namespace SameButBooks

variable {t : AppState}

theorem refl (s : AppState) : SameButBooks s s := rfl

theorem trans (h : SameButBooks s s') (h' : SameButBooks s' t) : SameButBooks s t := by
  unfold SameButBooks at *
  rw [h', h]

theorem foldl {ι : Type} {f : AppState → ι → AppState} (hf : ∀ s i, SameButBooks s (f s i))
    (is : List ι) (s : AppState) : SameButBooks s (is.foldl f s) := by
  induction is generalizing s with
  | nil => exact refl s
  | cons i is ih => exact (hf s i).trans (ih _)

theorem foldlM {ι : Type} {f : AppState → ι → Exec AppState}
    (hf : ∀ s i s', f s i = .ok s' → SameButBooks s s') {is : List ι}
    (h : is.foldlM f s = .ok s') : SameButBooks s s' :=
  foldlM_rel h refl (fun _ _ _ => trans) fun i _ s t hs => hf s i t hs

theorem registerCloid (a : AccountAddress) (c : ClientOrderId) (m : MarketId) (i : OrderId) :
    SameButBooks s (s.registerCloid a c m i) := rfl

theorem removeCloid (a : AccountAddress) (c : ClientOrderId) :
    SameButBooks s (s.removeCloid a c) := by
  unfold AppState.removeCloid
  split <;> rfl

theorem removeCloidByOrder (m : MarketId) (i : OrderId) :
    SameButBooks s (s.removeCloidByOrder m i) := by
  unfold AppState.removeCloidByOrder
  split <;> rfl

theorem removeCloids (cloids : List ClientOrderId) :
    SameButBooks s (s.removeCloids sender cloids) :=
  foldl (fun _ _ => removeCloid _ _) cloids s

theorem takeTradeId {n : Nat} (h : s.takeTradeId = .ok (n, s')) : SameButBooks s s' := by
  obtain ⟨_, -, h⟩ := bind_inv h
  cases pure_inv h
  rfl

theorem recordSpotFill {fill : SpotFill} (h : s.recordSpotFill fill = .ok s') :
    SameButBooks s s' := by
  obtain ⟨⟨n, t⟩, ht, h⟩ := bind_inv h
  cases pure_inv h
  exact (takeTradeId ht).trans rfl

theorem recordPerpFill {fill : Fill} (h : s.recordPerpFill fill = .ok s') :
    SameButBooks s s' := by
  obtain ⟨⟨n, t⟩, ht, h⟩ := bind_inv h
  obtain ⟨fee, -, h⟩ := bind_inv h
  cases pure_inv h
  exact (takeTradeId ht).trans rfl

theorem recordPlaced (rests : Bool) (m : MarketId) (o : Order) (ro : Bool) (t : Timestamp) :
    SameButBooks s (s.recordPlaced rests sender m o ro t) := by
  unfold AppState.recordPlaced
  split <;> rfl

variable (hfree : ∀ s i, i.free = true → G s i)

include hfree in
/-- Bookkeeping is a run. -/
theorem reaches (h : SameButBooks s s') : Run.Reaches (applyEffect sender) G s s' :=
  reach_one (i := .bookkeeping s'.cloidToOid s'.oidToCloid s'.pendingBlockEvents s'.nextTradeId)
    (hfree _ _ rfl) (congrArg Except.ok h.symm)

end SameButBooks

/-- A call that the perp engine answers. -/
theorem onPerp_of_eq {e e' : Engine} {f : Engine → Exec Engine} (hs : s.perp = some e)
    (hf : f e = .ok e') : s.onPerp f = .ok (s.setPerp e') := by
  unfold onPerp
  rw [hs]
  exact bind_eq_ok.mpr ⟨e', hf, rfl⟩

/-- A call that the spot engine answers. -/
theorem onSpot_of_eq {e e' : SpotEngineState} {f : SpotEngineState → Exec SpotEngineState}
    (hs : s.spot = some e) (hf : f e = .ok e') : s.onSpot f = .ok (s.setSpot e') := by
  unfold onSpot
  rw [hs]
  exact bind_eq_ok.mpr ⟨e', hf, rfl⟩

/-- A change of the balance sheet, whose result is dropped. -/
theorem onUnified_snd {α : Type} {a : α} {u : UnifiedState}
    {g : UnifiedState → Exec (α × UnifiedState)} (hg : g s.unifiedState = .ok (a, u)) :
    (s.onUnified fun u => return (← g u).2) = .ok (s.setUnified u) :=
  bind_eq_ok.mpr ⟨u, bind_eq_ok.mpr ⟨(a, u), hg, rfl⟩, rfl⟩

variable (hfree : ∀ s i, i.free = true → G s i)

include hfree

variable {b b' : OrderBatch} {m : MarketId} {r : Except AppError (List Event)}

theorem batchSpotOrder_reaches {request : OrderRequest} {t : Timestamp}
    (hG : G b.app (.spotOrder m request t)) (h : batchSpotOrder b sender m request t = .ok b') :
    Run.Reaches (applyEffect sender) G b.app b'.app := by
  unfold batchSpotOrder at h
  split at h
  · cases pure_inv h
    exact .refl
  · rename_i engine hspot
    obtain ⟨⟨r, engine'⟩, hp, h⟩ := bind_inv h
    have hplace : Run.Reaches (applyEffect sender) G b.app (b.app.setSpot engine') :=
      reach_one hG (onSpot_of_eq hspot (bind_eq_ok.mpr ⟨_, hp, rfl⟩))
    dsimp only at h
    split at h
    · cases pure_inv h
      exact hplace
    · obtain ⟨app, ha, h⟩ := bind_inv h
      cases pure_inv h
      exact hplace.trans (SameButBooks.reaches hfree
        ((SameButBooks.foldlM (fun _ _ _ => .recordSpotFill) ha).trans (.recordPlaced _ _ _ _ _)))

theorem batchPerpOrder_reaches {request : OrderRequest} {t : Timestamp}
    (hG : G b.app (.perpOrder request t)) (h : batchPerpOrder b sender m request t = .ok b') :
    Run.Reaches (applyEffect sender) G b.app b'.app := by
  unfold batchPerpOrder at h
  split at h
  · cases pure_inv h
    exact .refl
  · rename_i engine hperp
    obtain ⟨⟨r, engine'⟩, hp, h⟩ := bind_inv h
    have hplace : Run.Reaches (applyEffect sender) G b.app (b.app.setPerp engine') :=
      reach_one hG (onPerp_of_eq hperp (bind_eq_ok.mpr ⟨_, hp, rfl⟩))
    dsimp only at h
    split at h
    · cases pure_inv h
      exact hplace
    · obtain ⟨app, ha, h⟩ := bind_inv h
      cases pure_inv h
      exact hplace.trans (SameButBooks.reaches hfree
        ((SameButBooks.foldlM (fun _ _ _ => .recordPerpFill) ha).trans (.recordPlaced _ _ _ _ _)))

theorem batchOrder_reaches {wire : OrderWire} {t : Timestamp}
    (hG : ∀ request, wire.toOrderRequest = .ok request → G b.app (orderEffect wire.a request t))
    (h : batchOrder b sender wire t = .ok (.ok b')) :
    Run.Reaches (applyEffect sender) G b.app b'.app := by
  unfold batchOrder at h
  split at h
  · cases pure_inv h
  · rename_i request hr
    have hG := hG request hr
    obtain ⟨b₁, h₁, h⟩ := bind_inv h
    obtain rfl : b₁ = b' := by simpa using h
    unfold orderEffect at hG
    split at h₁
    · rename_i hm
      rw [if_pos hm] at hG
      exact batchSpotOrder_reaches hfree hG h₁
    · rename_i hm
      rw [if_neg hm] at hG
      exact batchPerpOrder_reaches hfree hG h₁

/-- **Order batches**, also the ones that stop half way. -/
theorem runOrders_reaches {wires : List OrderWire} {t : Timestamp}
    (hG : BatchMeets G sender t wires b) (h : runOrders sender t wires b = .ok (r, s')) :
    Run.Reaches (applyEffect sender) G b.app s' := by
  induction wires generalizing b with
  | nil =>
    cases pure_inv h
    exact SameButBooks.reaches hfree
      ((SameButBooks.foldl (fun _ _ => .registerCloid _ _ _ _) _ _).trans
        (.foldl (fun _ _ => .removeCloidByOrder _ _) _ _))
  | cons wire wires ih =>
    obtain ⟨r₁, h₁, h⟩ := bind_inv h
    cases r₁ with
    | error e =>
      cases pure_inv h
      exact .refl
    | ok b₁ => exact (batchOrder_reaches hfree hG.1 h₁).trans (ih (hG.2 b₁ h₁) h)

theorem cancelInEngine_reaches {i : OrderId} {r : Option (Except Error Order)}
    (h : s.cancelInEngine sender m i = .ok (r, s')) :
    Run.Reaches (applyEffect sender) G s s' := by
  unfold cancelInEngine at h
  split at h <;> split at h
  · cases pure_inv h
    exact .refl
  · rename_i engine hspot
    obtain ⟨⟨r₁, engine'⟩, hc, h⟩ := bind_inv h
    cases pure_inv h
    exact reach_one (i := .spotCancel m i) (hfree _ _ rfl)
      (onSpot_of_eq hspot (bind_eq_ok.mpr ⟨_, hc, rfl⟩))
  · cases pure_inv h
    exact .refl
  · rename_i engine hperp
    cases pure_inv h
    exact reach_one (i := .perpCancel m i) (hfree _ _ rfl) (onPerp_of_eq hperp rfl)

theorem batchCancel_reaches {b b' : CancelBatch} {cancel : CancelWire}
    (h : batchCancel sender b cancel = .ok b') :
    Run.Reaches (applyEffect sender) G b.app b'.app := by
  obtain ⟨⟨r, app⟩, hc, h⟩ := bind_inv h
  have hrun := cancelInEngine_reaches hfree hc
  dsimp only at h
  split at h
  · cases pure_inv h
    split <;> exact .refl
  · cases pure_inv h
    exact hrun
  · cases pure_inv h
    exact hrun

theorem batchCancelByCloid_reaches {b b' : CancelBatch} {cancel : CancelByCloidWire}
    (h : batchCancelByCloid sender b cancel = .ok b') :
    Run.Reaches (applyEffect sender) G b.app b'.app := by
  unfold batchCancelByCloid at h
  split at h
  · cases pure_inv h
    exact .refl
  · split at h
    · cases pure_inv h
      exact .refl
    · obtain ⟨⟨r, app⟩, hc, h⟩ := bind_inv h
      have hrun := cancelInEngine_reaches hfree hc
      dsimp only at h
      split at h
      · cases pure_inv h
        exact .refl
      · cases pure_inv h
        exact hrun
      · cases pure_inv h
        exact hrun

theorem cancelSpotMarkets_reaches {ms : List MarketId} {orders : List Order}
    (h : cancelSpotMarkets sender ms s = .ok (orders, s')) :
    Run.Reaches (applyEffect sender) G s s' := by
  induction ms generalizing s s' orders with
  | nil =>
    cases pure_inv h
    exact .refl
  | cons m ms ih =>
    unfold cancelSpotMarkets at h
    split at h
    · cases pure_inv h
      exact .refl
    · rename_i engine hspot
      obtain ⟨⟨canceled, engine'⟩, hc, h⟩ := bind_inv h
      obtain ⟨⟨rest, s₁⟩, hr, h⟩ := bind_inv h
      cases pure_inv h
      exact (reach_one (i := .spotCancelAll m) (hfree _ _ rfl)
        (onSpot_of_eq hspot (bind_eq_ok.mpr ⟨_, hc, rfl⟩))).trans (ih hr)

theorem cancelPerpMarkets_reaches (ms : List MarketId) (s : AppState) :
    Run.Reaches (applyEffect sender) G s (cancelPerpMarkets sender ms s).2 := by
  induction ms generalizing s with
  | nil => exact .refl
  | cons m ms ih =>
    unfold cancelPerpMarkets
    split
    · exact .refl
    · rename_i engine hperp
      have hone : Run.Reaches (applyEffect sender) G s
          (s.setPerp (engine.cancelAllOrders sender m).2) :=
        reach_one (i := .perpCancelAll m) (hfree _ _ rfl) (onPerp_of_eq hperp rfl)
      dsimp only
      split <;> exact hone.trans (ih _)

omit hfree in
theorem executeViewTransfer_reaches {token : TokenIndex} {amount : String} {toEvm : Bool}
    {r : Except AppError (List Event)}
    (hG : ∀ k x, s.weiDecimals token = some k → Decimal.fromStrExact amount.toList k = some x →
      G s (.viewTransfer token x toEvm))
    (h : s.executeViewTransfer sender token amount toEvm = .ok (r, s')) :
    Run.Reaches (applyEffect sender) G s s' := by
  unfold executeViewTransfer at h
  split at h
  · cases pure_inv h
    exact .refl
  · rename_i engine hspot
    split at h
    · cases pure_inv h
      exact .refl
    · rename_i info hinfo
      split at h
      · cases pure_inv h
        exact .refl
      · rename_i x hx
        obtain ⟨⟨r₁, engine'⟩, hv, h⟩ := bind_inv h
        have hone : Run.Reaches (applyEffect sender) G s (s.setSpot engine') :=
          reach_one (hG _ x (by simp [weiDecimals, hspot, hinfo]) hx)
            (onSpot_of_eq hspot (bind_eq_ok.mpr ⟨_, hv, rfl⟩))
        dsimp only at h
        split at h <;> cases pure_inv h <;> exact hone

omit hfree in
theorem executeUsdTransfer_reaches {d : AccountAddress} {amount : String}
    {r : Except AppError (List Event)}
    (hG : ∀ x, Decimal.fromStrExact amount.toList 6 = some x → G s (.usdTransfer d x))
    (h : s.executeUsdTransfer sender d amount = .ok (r, s')) :
    Run.Reaches (applyEffect sender) G s s' := by
  unfold executeUsdTransfer at h
  split at h
  · cases pure_inv h
    exact .refl
  · rename_i x hx
    split at h
    · cases pure_inv h
      exact .refl
    · obtain ⟨⟨done, u⟩, ht, h⟩ := bind_inv h
      have hone : Run.Reaches (applyEffect sender) G s (s.setUnified u) :=
        reach_one (hG x hx) (by simp only [applyEffect]; exact onUnified_snd ht)
      dsimp only at h
      split at h <;> cases pure_inv h <;> exact hone

omit hfree in
theorem executeWithdraw_reaches {d : AccountAddress} {amount : String}
    {r : Except AppError (List Event)}
    (hG : ∀ x, Decimal.fromStrExact amount.toList 6 = some x → G s (.withdraw x))
    (h : s.executeWithdraw sender d amount = .ok (r, s')) :
    Run.Reaches (applyEffect sender) G s s' := by
  unfold executeWithdraw at h
  split at h
  · cases pure_inv h
    exact .refl
  · rename_i x hx
    obtain ⟨⟨done, u⟩, ht, h⟩ := bind_inv h
    have hone : Run.Reaches (applyEffect sender) G s (s.setUnified u) :=
      reach_one (hG x hx) (by simp only [applyEffect]; exact onUnified_snd ht)
    dsimp only at h
    split at h <;> cases pure_inv h <;> exact hone

omit hfree in
/-- An EVM action with a payload makes the move that `evmEffect` reads from it. -/
theorem executeEvmAction_reaches {actionType : UInt8} {data : List UInt8}
    {r : Except AppError (List Event)}
    (hG : ∀ effect, evmEffect actionType data = .ok (some effect) → G s effect)
    (h : s.executeEvmAction sender actionType data = .ok (r, s')) :
    Run.Reaches (applyEffect sender) G s s' := by
  unfold executeEvmAction at h
  split at h
  · rename_i hlen
    obtain ⟨amount, ha, h⟩ := bind_inv h
    have hread : ∀ x : Option Effect,
        (if actionType = 0 ∨ actionType = 3 then
          some (Effect.evmMove (evmPayload data).1 amount false)
        else if actionType = 1 ∨ actionType = 2 then
          some (.evmMove (evmPayload data).1 amount true)
        else none) = x → evmEffect actionType data = .ok x := by
      rintro x rfl
      unfold evmEffect
      rw [if_pos hlen]
      refine bind_eq_ok.mpr ⟨amount, ha, ?_⟩
      split
      · rfl
      · split <;> rfl
    unfold executeEvmMove at h
    split at h
    · rename_i h03
      obtain ⟨⟨r₁, u⟩, ht, h⟩ := bind_inv h
      have hone : Run.Reaches (applyEffect sender) G s (s.setUnified u) :=
        reach_one (hG _ (hread _ (if_pos h03))) (by
          simp only [applyEffect, Bool.false_eq_true, if_false]
          exact onUnified_snd ht)
      dsimp only at h
      split at h <;> cases pure_inv h <;> exact hone
    · rename_i h03
      split at h
      · rename_i h12
        obtain ⟨⟨r₁, u⟩, ht, h⟩ := bind_inv h
        have hone : Run.Reaches (applyEffect sender) G s (s.setUnified u) :=
          reach_one (hG _ (hread _ (by rw [if_neg h03, if_pos h12]))) (by
            simp only [applyEffect, if_true]
            exact onUnified_snd ht)
        dsimp only at h
        split at h <;> cases pure_inv h <;> exact hone
      · cases pure_inv h
        exact .refl
  · split at h <;> cases pure_inv h <;> exact .refl

theorem executeUpdateLeverage_reaches {l : UInt8}
    (h : s.executeUpdateLeverage sender m l = .ok (r, s')) :
    Run.Reaches (applyEffect sender) G s s' := by
  unfold executeUpdateLeverage at h
  split at h
  · rename_i hperp
    cases pure_inv h
    exact reach_one (i := .updateLeverage m l) (hfree _ _ rfl) (by simp [applyEffect, hperp])
  · rename_i engine hperp
    obtain ⟨⟨r₁, engine'⟩, hu, h⟩ := bind_inv h
    have hone : Run.Reaches (applyEffect sender) G s (s.setPerp engine') := by
      refine reach_one (i := .updateLeverage m l) (hfree _ _ rfl) ?_
      simp only [applyEffect, hperp]
      exact onPerp_of_eq hperp (bind_eq_ok.mpr ⟨_, hu, rfl⟩)
    dsimp only at h
    split at h <;> cases pure_inv h <;> exact hone

theorem executeSetMarginMode_reaches (mode : MarginMode) :
    Run.Reaches (applyEffect sender) G s (s.executeSetMarginMode sender mode).2 := by
  unfold executeSetMarginMode
  split
  · exact .refl
  · rename_i engine hperp
    have hone : Run.Reaches (applyEffect sender) G s
        (s.setPerp (engine.setMarginMode sender mode).2) :=
      reach_one (i := .setMarginMode mode) (hfree _ _ rfl) (onPerp_of_eq hperp rfl)
    dsimp only
    split <;> exact hone

theorem executeCancelTrigger_reaches (i : OrderId) :
    Run.Reaches (applyEffect sender) G s (s.executeCancelTrigger sender i).2 := by
  unfold executeCancelTrigger
  split
  · exact .refl
  · rename_i engine hperp
    have hone : Run.Reaches (applyEffect sender) G s
        (s.setPerp { engine with state := (engine.state.removeTriggerOrder i).2 }) :=
      reach_one (i := .cancelTrigger i) (hfree _ _ rfl) (onPerp_of_eq hperp rfl)
    dsimp only
    split <;> exact hone

/-- **Actions are runs of effects**, each made in a state that meets the condition. -/
theorem executeAction_reaches {t : Timestamp} {action : TransactionType}
    (hG : ActionMeets G s sender t action) (h : s.executeAction sender t action = .ok (r, s')) :
    Run.Reaches (applyEffect sender) G s s' := by
  cases action with
  | order orders => exact runOrders_reaches hfree hG h
  | spotOrder orders => exact runOrders_reaches hfree hG h
  | cancel cancels =>
    obtain ⟨b, hb, h⟩ := bind_inv h
    cases pure_inv h
    have hrun := foldlM_rel (R := fun b b' : CancelBatch =>
      Run.Reaches (applyEffect sender) G b.app b'.app) hb (fun _ => .refl)
      (fun _ _ _ => .trans) fun _ _ _ _ => batchCancel_reaches hfree
    exact hrun.trans (SameButBooks.reaches hfree (.removeCloids _))
  | cancelByCloid cancels =>
    obtain ⟨b, hb, h⟩ := bind_inv h
    cases pure_inv h
    have hrun := foldlM_rel (R := fun b b' : CancelBatch =>
      Run.Reaches (applyEffect sender) G b.app b'.app) hb (fun _ => .refl)
      (fun _ _ _ => .trans) fun _ _ _ _ => batchCancelByCloid_reaches hfree
    exact hrun.trans (SameButBooks.reaches hfree (.removeCloids _))
  | cancelAll =>
    obtain ⟨⟨spotCanceled, s₁⟩, hc, h⟩ := bind_inv h
    cases pure_inv h
    exact ((cancelSpotMarkets_reaches hfree hc).trans
      (cancelPerpMarkets_reaches hfree _ _)).trans
        (SameButBooks.reaches hfree (.removeCloids _))
  | spotCancelAll market =>
    obtain ⟨⟨canceled, s₁⟩, hc, h⟩ := bind_inv h
    cases pure_inv h
    exact cancelSpotMarkets_reaches hfree hc
  | updateLeverage m l => exact executeUpdateLeverage_reaches hfree h
  | usdTransfer d amount => exact executeUsdTransfer_reaches hG h
  | withdraw d amount => exact executeWithdraw_reaches hG h
  | evmAction actionType data => exact executeEvmAction_reaches hG h
  | viewTransfer token amount toEvm => exact executeViewTransfer_reaches hG h
  | setMarginMode mode =>
    obtain ⟨-, rfl⟩ := Prod.ext_iff.mp (pure_inv h)
    exact executeSetMarginMode_reaches hfree mode
  | cancelTrigger m i =>
    obtain ⟨-, rfl⟩ := Prod.ext_iff.mp (pure_inv h)
    exact executeCancelTrigger_reaches hfree i

omit hfree in
/-- Actions are runs of effects, whatever these are. -/
theorem executeAction_run {t : Timestamp} {action : TransactionType}
    {r : Except AppError (List Event)} (h : s.executeAction sender t action = .ok (r, s')) :
    Run.Reaches (applyEffect sender) (fun _ _ => True) s s' := by
  have hmeets : ActionMeets (fun _ _ => True) s sender t action := by
    have hbatch : ∀ wires b, BatchMeets (fun _ _ => True) sender t wires b := by
      intro wires
      induction wires with
      | nil => exact fun _ => trivial
      | cons wire wires ih => exact fun b => ⟨fun _ _ => trivial, fun b' _ => ih b'⟩
    cases action <;> first | exact hbatch _ _ | simp [ActionMeets]
  exact executeAction_reaches (fun _ _ _ => trivial) hmeets h

end Reach

end AppState

end Hypercore
