import Hypercore.Engine.Frames
import Hypercore.Primitives.FillValue
import Mathlib.Logic.Relation
/-!
# Hypercore.Engine.Positions

Every way the engine writes a position.

**One inversion for all operations.** `PosWrite` lists the writes: a new empty
position, a fill, a funding settlement. Each operation of the engine is a sequence of
them (`step_posWrites`): fills are those of matching, of liquidation and of
auto-deleverage alike. What the three keep, every reachable engine has
(`Reachable.positionsWF`).
-/

namespace Hypercore

open Exec Int128

namespace Engine

open EngineState

/-- One write to the positions, or none. -/
inductive PosWrite (s s' : EngineState) : Prop
  | same (h : s'.positions = s.positions)
  | opened (a : AccountAddress) (m : MarketId) (hnone : s.getPosition a m = none)
      (h : s'.positions = (s.setPosition a m .new).positions)
  | filled (a : AccountAddress) (m : MarketId) (p p' : Position) (f price : Decimal)
      (isBuy : Bool) (hp : s.getPosition a m = some p) (hf : f.decimals = 8)
      (hfill : p.applyFill f price isBuy = .ok p')
      (h : s'.positions = (s.setPosition a m p').positions)
  | funded (a : AccountAddress) (m : MarketId) (p p' : Position) (acc payment : Decimal)
      (hp : s.getPosition a m = some p) (hfund : p.settleFunding acc = .ok (payment, p'))
      (h : s'.positions = (s.setPosition a m p').positions)

theorem mem_getAllPositions {s : EngineState} {a : AccountAddress} {m : MarketId} {p : Position} :
    (m, p) ∈ s.getAllPositions a ↔ s.getPosition a m = some p := by
  unfold getAllPositions getPosition
  rw [FinMap.mem_toList]
  cases s.positions[a]? <;> simp

/-- All positions are well formed. -/
def PositionsWF (s : EngineState) : Prop := ∀ a m p, s.getPosition a m = some p → p.WF

/-- Any number of writes. -/
def PosWrites (s s' : EngineState) : Prop := Relation.ReflTransGen PosWrite s s'

section Writes

variable {s s' t : EngineState} {e e' : Engine} {a : AccountAddress} {m : MarketId}

theorem PosWrites.refl : PosWrites s s := Relation.ReflTransGen.refl

theorem PosWrites.single (h : PosWrite s s') : PosWrites s s' := Relation.ReflTransGen.single h

theorem PosWrites.trans (h : PosWrites s s') (h' : PosWrites s' t) : PosWrites s t :=
  Relation.ReflTransGen.trans h h'

/-- **Step lemma.** A write keeps positions well formed. -/
theorem PosWrite.wf (h : PosWrite s s') (hs : PositionsWF s) : PositionsWF s' := by
  have hset : ∀ {a m p}, p.WF → s'.positions = (s.setPosition a m p).positions →
      PositionsWF s' := by
    intro a m p hp heq b k q hq
    have hq' : (s.setPosition a m p).getPosition b k = some q := by
      unfold getPosition at hq ⊢
      rw [← heq]
      exact hq
    rw [getPosition_setPosition] at hq'
    split at hq'
    · obtain rfl := Option.some.inj hq'
      exact hp
    · exact hs b k q hq'
  cases h with
  | same heq =>
    intro a m p hp
    unfold getPosition at hp
    rw [heq] at hp
    exact hs a m p hp
  | opened a m _ heq => exact hset Position.new_wf heq
  | filled a m p p' f price isBuy hp hf hfill heq =>
    exact hset (Position.applyFill_eq (hs a m p hp) hf hfill).1 heq
  | funded a m p p' acc payment hp hfund heq =>
    exact hset (Position.settleFunding_wf (hs a m p hp) hfund) heq

theorem PosWrites.wf (h : PosWrites s s') (hs : PositionsWF s) : PositionsWF s' := by
  induction h with
  | refl => exact hs
  | tail _ hw ih => exact hw.wf ih

theorem PosWrites.of_same (h : s'.positions = s.positions) : PosWrites s s' := .single (.same h)

theorem PosWrites.of_opened (s : EngineState) (a : AccountAddress) (m : MarketId) :
    PosWrites s (s.getOrCreatePosition a m) := by
  unfold getOrCreatePosition
  split
  · exact .refl
  · rename_i h
    exact .single (.opened a m h rfl)

variable {price size : Decimal} {ord : HashOrder}
variable {isBuy : Bool} {r : Except Error (Order × List Fill)} {x d : Decimal} {p : Position}

theorem PosWrites.of_fill {f : Decimal} (hf : f.decimals = 8)
    (h : s.modifyPosition a m (fun p => p.applyFill f price isBuy) = .ok s') :
    PosWrites s s' := by
  rcases modifyPosition_eq_ok h with ⟨-, rfl⟩ | ⟨p, p', hp, hfill, rfl⟩
  · exact .refl
  · exact .single (.filled a m p p' f price isBuy hp hf hfill rfl)

theorem PosWrites.of_orders (h : OrdersOnly s s') : PosWrites s s' := by
  obtain ⟨_, _, _, rfl⟩ := h
  exact .of_same rfl

theorem PosWrites.of_triggers (h : TriggersOnly s s') : PosWrites s s' := by
  obtain ⟨_, _, _, rfl⟩ := h
  exact .of_same rfl

theorem applyFill_posWrites {fill : Fill} (h : e.applyFill fill = .ok e') :
    PosWrites e.state e'.state := by
  obtain ⟨s₁, s₂, s₃, s₄, u, h1, h2, h3, h4, rfl⟩ := applyFill_steps h
  obtain ⟨t₁, t₂, _, _, g1, g2, h1⟩ := fillPositions_steps h1
  obtain ⟨_, rfl⟩ := modifyMarket_only h1
  obtain ⟨_, rfl⟩ := modifyAccount_only h2
  obtain ⟨_, rfl⟩ := modifyAccount_only h3
  obtain ⟨_, rfl⟩ := fillMarket_only h4
  refine ((PosWrites.of_fill rfl g1).trans
    (PosWrites.of_fill rfl g2)).trans ?_
  refine PosWrites.of_same ?_
  obtain ⟨_, _, _, _, _, hrecord⟩ := fillRecord_writes _ fill
  dsimp only
  rw [hrecord]

theorem settleFills_posWrites {config : MarketConfig} {fills fills' : List Fill}
    (h : settleFills config fills e = .ok (fills', e')) : PosWrites e.state e'.state := by
  induction fills generalizing e e' fills' with
  | nil =>
    obtain ⟨-, rfl⟩ := pair_inv h
    exact .refl
  | cons fill fills ih =>
    obtain ⟨fill', -, h⟩ := bind_inv h
    obtain ⟨e₁, h1, h⟩ := bind_inv h
    obtain ⟨⟨rest, e₂⟩, h2, h⟩ := bind_inv h
    obtain ⟨-, rfl⟩ := pair_inv h
    exact (applyFill_posWrites h1).trans (ih h2)

theorem executeOrder_posWrites {market : Market} {order : Order}
    (h : e.executeOrder market order = .ok (r, e')) :
    PosWrites e.state e'.state := by
  refine executeOrder_rule (P := fun e' => PosWrites e.state e'.state) .refl ?_ h
  intro book r₁ book' _ _
  refine ⟨.of_same rfl, fun updated fills fills' e₁ s _ hs hsettle => ?_⟩
  have hbook : PosWrites e.state (e.state.setOrderbook order.marketId book') := .of_same rfl
  have hmakers := hbook.trans (.of_orders (syncMakers_only _ updated.marketId fills))
  have hfills : PosWrites e.state e₁.state :=
    hmakers.trans (hs ▸ settleFills_posWrites hsettle)
  exact ⟨hfills, fun _ s' hadd => hfills.trans (.of_orders (addOrder_only hadd))⟩

theorem openAccount_posWrites (e : Engine) (a : AccountAddress) (m : MarketId) :
    PosWrites e.state (e.openAccount a m).state := by
  obtain ⟨_, h⟩ := syncAccount_only e a
  have hsync : PosWrites e.state (e.syncAccount a).state := .of_same (by rw [h])
  exact hsync.trans (.of_opened _ a m)

theorem submitOrder_posWrites {q : OrderRequest} {t : Timestamp}
    (h : e.submitOrder a q t = .ok (r, e')) :
    PosWrites e.state e'.state := by
  have hopen := openAccount_posWrites e a q.marketId
  have henter : PosWrites e.state (e.enter a q.marketId).state := hopen.trans (.of_same rfl)
  exact submitOrder_rule (P := fun e' => PosWrites e.state e'.state) .refl hopen
    (fun _ ht => henter.trans (.of_triggers ht))
    (fun _ _ hexec => henter.trans (executeOrder_posWrites hexec)) h

/-! ### Block-end passes -/

theorem settleMarket_posWrites {t : Timestamp} {rates rates' : List (MarketId × Decimal)}
    (h : settleMarket t (rates, e) m = .ok (rates', e')) : PosWrites e.state e'.state := by
  rcases settleMarket_cases h with ⟨-, rfl⟩ | ⟨market, rate, s, -, -, hs, -, rfl⟩
  · exact .refl
  · obtain ⟨_, rfl⟩ := modifyMarket_only hs
    exact .of_same rfl

theorem settleAccount_posWrites {t : Timestamp} {rate acc : Decimal}
    (h : settleAccount m rate acc t e a = .ok e') : PosWrites e.state e'.state := by
  rcases settleAccount_inv h with rfl | ⟨p, payment, p', _, _, _, hp, hset, rfl⟩
  · exact .refl
  · have hfund : PosWrites e.state (e.state.setPosition a m p') :=
      .single (.funded a m p p' acc payment hp hset rfl)
    exact hfund.trans (.of_same rfl)

theorem processFunding_posWrites {t : Timestamp} {rates : List (MarketId × Decimal)}
    (h : e.processFunding t = .ok (rates, e')) : PosWrites e.state e'.state := by
  obtain ⟨⟨rates₁, e₁⟩, h1, h⟩ := bind_inv h
  obtain ⟨e₂, h2, h⟩ := bind_inv h
  obtain ⟨-, rfl⟩ := pair_inv h
  have f1 : PosWrites e.state e₁.state :=
    foldlM_rel (R := fun x y => PosWrites x.2.state y.2.state) h1 (fun _ => .refl)
      (fun _ _ _ => .trans) (fun _ _ _ _ h => settleMarket_posWrites h)
  refine f1.trans (foldlM_rel (R := fun x y => PosWrites x.state y.state) h2
    (fun _ => .refl) (fun _ _ _ => .trans) fun mr _ e e' h => ?_)
  unfold settleHolders at h
  split at h
  · obtain rfl := pure_inv h
    exact .refl
  · obtain ⟨e₃, h3, h⟩ := bind_inv h
    obtain rfl := pure_inv h
    have f3 : PosWrites e.state e₃.state :=
      foldlM_rel (R := fun x y => PosWrites x.state y.state) h3 (fun _ => .refl)
        (fun _ _ _ => .trans) fun _ _ _ _ h => settleAccount_posWrites h
    exact f3.trans (.of_same rfl)

/-- A product has the scale of its first factor. -/
theorem mul_decimals {y z : Decimal} (h : x.mul y = .ok z) : z.decimals = x.decimals := by
  rw [(Decimal.mul_eq_ok.mp h).2.2]

theorem absSize_decimals (h : p.absSize = .ok x) :
    x.decimals = p.size.decimals := by
  rw [(Decimal.abs_eq_ok.mp h).2]

theorem deleverage_posWrites {d' : Decimal} {c : AccountAddress × Decimal} (hs : PositionsWF s)
    (h : deleverage m price (s, d) c = .ok (s', d')) : PosWrites s s' := by
  rcases deleverage_inv h with rfl | ⟨pos, abs, ratio, size, hpos, -, habs, hsize, hfill⟩
  · exact .refl
  · refine PosWrites.of_fill ?_ hfill
    rw [mul_decimals hsize, absSize_decimals habs, (hs _ _ _ hpos).size]

theorem triggerAdl_posWrites (hwf : PositionsWF e.state) (h : triggerAdl ord e m d price = .ok e') :
    PosWrites e.state e'.state := by
  obtain ⟨cs, -, h⟩ := bind_inv h
  obtain ⟨⟨s₂, d₂⟩, h2, h⟩ := bind_inv h
  obtain rfl := pure_inv h
  exact foldlM_induction (P := fun x : EngineState × Decimal => PosWrites e.state x.1) h2
    .refl fun _ _ _ _ hw h => hw.trans (deleverage_posWrites (hw.wf hwf) h)

theorem settleResidual_posWrites {b : Decimal} (hwf : PositionsWF e.state)
    (h : settleResidual ord e m b size price isBuy = .ok e') :
    PosWrites e.state e'.state := by
  obtain ⟨r, -, rfl | ⟨-, -, hadl⟩⟩ := settleResidual_cases h
  · exact .of_same rfl
  · exact triggerAdl_posWrites hwf hadl

theorem calculateLiquidationSize_decimals {l : LiquidationEngine} (hp : p.WF)
    (h : l.calculateLiquidationSize p = .ok size) : size.decimals = 8 := by
  obtain ⟨abs, habs, h⟩ := bind_inv h
  obtain ⟨ratio, -, h⟩ := bind_inv h
  obtain ⟨part, hpart, h⟩ := bind_inv h
  obtain rfl := pure_inv h
  have h1 : abs.decimals = 8 := by rw [absSize_decimals habs, hp.size]
  unfold Decimal.min
  split
  · rw [mul_decimals hpart, h1]
  · exact h1

theorem applyLiquidation_posWrites (hwf : PositionsWF e.state) (hsize : size.decimals = 8)
    (h : applyLiquidation ord e a m size price = .ok e') : PosWrites e.state e'.state := by
  unfold applyLiquidation at h
  dsimp only at h
  split at h
  · obtain rfl := pure_inv h
    exact .refl
  · obtain ⟨b, -, h⟩ := bind_inv h
    obtain ⟨e₁, h1, h⟩ := bind_inv h
    obtain ⟨s₂, h2, h⟩ := bind_inv h
    obtain rfl := pure_inv h
    have f1 : PosWrites e.state e₁.state := by
      cases b with
      | none =>
        obtain rfl := pure_inv h1
        exact .refl
      | some b => exact settleResidual_posWrites hwf h1
    exact (f1.trans (.of_fill hsize h2)).trans (.of_triggers cancelTriggerOrdersForPosition_only)

theorem liquidate_posWrites {l l' : Liquidations} {pair : AccountAddress × MarketId}
    (hwf : PositionsWF e.state) (h : liquidate ord (l, e) pair = .ok (l', e')) :
    PosWrites e.state e'.state := by
  unfold liquidate at h
  dsimp only at h
  split at h
  · rename_i market p _ hp
    obtain ⟨r, hr, h⟩ := bind_inv h
    cases r with
    | none =>
      obtain ⟨-, rfl⟩ := pair_inv h
      exact .refl
    | some q =>
      obtain ⟨size, price⟩ := q
      obtain ⟨e₃, h3, h⟩ := bind_inv h
      obtain ⟨-, rfl⟩ := pair_inv h
      refine applyLiquidation_posWrites hwf ?_ h3
      unfold LiquidationEngine.processLiquidation at hr
      split at hr
      · exact absurd (pure_inv hr) (by simp)
      · obtain ⟨sz, hsz, hr⟩ := bind_inv hr
        obtain ⟨pr, -, hr⟩ := bind_inv hr
        obtain ⟨rfl, -⟩ := Prod.mk.inj (Option.some.inj (pure_inv hr))
        exact calculateLiquidationSize_decimals (hwf _ _ _ hp) hsz
  · obtain ⟨-, rfl⟩ := pair_inv h
    exact .refl

theorem processLiquidations_posWrites {l : Liquidations} (hwf : PositionsWF e.state)
    (h : e.processLiquidations ord = .ok (l, e')) :
    PosWrites e.state e'.state := by
  obtain ⟨pairs, -, h⟩ := bind_inv h
  exact foldlM_induction (P := fun x : Liquidations × Engine => PosWrites e.state x.2.state) h
    .refl fun _ _ _ _ hw h => hw.trans (liquidate_posWrites (hw.wf hwf) h)

end Writes

/-! ### Runs -/

theorem cancelRecords_only {m : MarketId} {os : List Order} {e : Engine} :
    OrdersOnly e.state (cancelRecords m os e).2.state := by
  induction os generalizing e with
  | nil => exact .refl _
  | cons o os ih =>
    have h1 : OrdersOnly e.state (e.cancelRecord m o.id o).2.state := removeOrder_only _ m o.id
    unfold cancelRecords
    split
    · rename_i heq
      rw [heq] at h1
      exact h1
    · rename_i heq
      rw [heq] at h1
      exact h1.trans ih

/-- **Step lemma.** Every operation writes positions in these ways only. -/
theorem step_posWrites {e e' : Engine} {op : Op} (hwf : PositionsWF e.state)
    (h : step op e = .ok e') : PosWrites e.state e'.state := by
  have hmeets := submitsMeet_of_forall (G := fun _ _ _ => True) (fun _ _ _ => trivial) e op
  refine step_rule (Q := PosWrites e.state)
    (fun s m id hw => hw.trans (.of_orders (removeOrder_only s m id))) .refl hmeets ?_ ?_ ?_ ?_ ?_ h
  · exact fun _ _ _ _ _ _ hw _ h => hw.trans (submitOrder_posWrites h)
  · exact fun _ _ hw ht => hw.trans (.of_triggers ht)
  · exact fun _ _ _ => .of_same rfl
  · exact fun _ _ _ h => processFunding_posWrites h
  · exact fun _ _ _ _ h => processLiquidations_posWrites hwf h

theorem Fresh.no_positions {e : Engine} (h : Fresh e) : e.state.positions = ∅ :=
  h.rule (P := fun s => s.positions = ∅) rfl fun _ _ _ _ ih => ih

/-- **Run lemma.** Every position of a reachable engine is well formed. -/
theorem Reachable.positionsWF {e : Engine} (h : Reachable e) : PositionsWF e.state := by
  refine h.induction (P := fun e => PositionsWF e.state) (fun e hf a m p hp => ?_)
    fun _ _ _ hwf _ hstep => (step_posWrites hwf hstep).wf hwf
  unfold getPosition at hp
  rw [hf.no_positions] at hp
  simp at hp

end Engine

end Hypercore
