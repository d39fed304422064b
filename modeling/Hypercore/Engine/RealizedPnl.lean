import Hypercore.Engine.Deleverage
import Hypercore.Engine.Equity
import Hypercore.Engine.LogRule
import Hypercore.Primitives.FillRun
/-!
# Hypercore.Engine.RealizedPnl

The realized PnL that fills report, and the one that positions keep.

The engine prices a fill for both parties before it applies it to either. As no account
trades with itself, what it reports for a party is what its position then books
(`reported_fill`), and over a run a position has booked what the fills reported. A
liquidation closes positions without a fill to report it, its own and those it deleverages,
and only positions of its own market.
-/

namespace Hypercore

open Exec Int128 Position

namespace Engine

open EngineState MatchingEngine

/-- Realized PnL of an account in a market, in micro-USDC. -/
def realizedOf (s : EngineState) (a : AccountAddress) (m : MarketId) : Int :=
  ((s.getPosition a m).map (·.realizedPnl.value)).getD 0

/-- Realized PnL that a fill reports for an account in a market. -/
def reportedBy (a : AccountAddress) (m : MarketId) (fill : Fill) : Int :=
  if fill.marketId = m then
    (if fill.maker = a then fill.realizedPnlMaker else 0) +
      (if fill.taker = a then fill.realizedPnlTaker else 0)
  else 0

/-- Realized PnL that the fills of a log report. -/
def reported (a : AccountAddress) (m : MarketId) (log : TradeLog) : Int :=
  (log.map fun ev => match ev with
    | .filled fill _ => reportedBy a m fill
    | _ => 0).sum

/-- The event is no liquidation in the market, or one that leaves the position alone. -/
def sparesPosition (a : AccountAddress) (m : MarketId) : TradeEvent → Bool
  | .liquidated _ k _ s s' => k ≠ m ∨ s'.getPosition a m = s.getPosition a m
  | _ => true

/-- The position is neither liquidated nor deleveraged. -/
def LeftAlone (a : AccountAddress) (m : MarketId) (log : TradeLog) : Prop :=
  ∀ ev ∈ log, sparesPosition a m ev = true

instance (a : AccountAddress) (m : MarketId) (log : TradeLog) : Decidable (LeftAlone a m log) :=
  inferInstanceAs (Decidable (∀ ev ∈ log, sparesPosition a m ev = true))

section Fill

variable {s s' : EngineState} {e e' : Engine} {a b : AccountAddress} {m k : MarketId}

theorem reported_append (log log' : TradeLog) :
    reported a m (log ++ log') = reported a m log + reported a m log' := by
  unfold reported
  rw [List.map_append, List.sum_append]

/-- One leg of a fill: the position books the preview. -/
theorem realizedOf_leg {f price : Decimal} {isBuy : Bool} (hwf : PositionsWF s)
    (h : s.modifyPosition a m (fun p => p.applyFill f price isBuy) = .ok s') {v : Int}
    (hv : ∀ p w, s.getPosition a m = some p → p.calculateFillPnl f price isBuy = .ok w →
      w.value = v)
    (hnone : s.getPosition a m = none → v = 0) :
    realizedOf s' a m = realizedOf s a m + v := by
  unfold realizedOf
  rcases modifyPosition_eq_ok h with ⟨hp, rfl⟩ | ⟨p, p', hp, hfill, rfl⟩
  · rw [hnone hp, Int.add_zero]
  · obtain ⟨w, hw, hbooked⟩ := applyFill_preview (hwf _ _ _ hp).realized hfill
    rw [getPosition_setPosition, if_pos ⟨rfl, rfl⟩, hp, ← hv p _ hp hw]
    simp only [Option.map_some, Option.getD_some, hbooked]

theorem realizedOf_congr (h : s'.getPosition a m = s.getPosition a m) :
    realizedOf s' a m = realizedOf s a m := by
  unfold realizedOf
  rw [h]

/-- What the engine previews for a party. -/
theorem previewPnl_spec {fill : Fill} {isBuy : Bool} {v : Int}
    (h : previewPnl s a fill isBuy 0 = .ok v) :
    (∀ p w, s.getPosition a fill.marketId = some p →
      p.calculateFillPnl (fillSize fill) (fillPrice fill) isBuy = .ok w → w.value = v) ∧
      (s.getPosition a fill.marketId = none → v = 0) := by
  unfold previewPnl at h
  split at h
  · rename_i hnone
    refine ⟨fun p w hp => ?_, fun _ => (pure_inv h).symm⟩
    rw [hnone] at hp
    cases hp
  · rename_i p hp
    obtain ⟨w, hw, h⟩ := bind_inv h
    refine ⟨fun q w' hq hw' => ?_, fun hnone => ?_⟩
    · obtain rfl := Option.some.inj (hp.symm.trans hq)
      obtain rfl := ok_unique hw hw'
      exact pure_inv h
    · rw [hnone] at hp
      cases hp

theorem modifyPosition_elsewhere {f : Position → Exec Position} (hne : ¬(a = b ∧ m = k))
    (h : s.modifyPosition a m f = .ok s') : s'.getPosition b k = s.getPosition b k := by
  rcases modifyPosition_eq_ok h with ⟨-, rfl⟩ | ⟨p, p', -, -, rfl⟩
  · rfl
  · rw [getPosition_setPosition, if_neg hne]

/-- **One fill.** Each party's position books what the fill reports for it. -/
theorem reported_fill {order best : Order} {size : Int} {f : Fill} {config : MarketConfig}
    (hwf : PositionsWF e.state) (hown : best.owner ≠ order.owner)
    (hprice : priceFill e.state config (mkFill order best size) = .ok f)
    (h : e.applyFill f = .ok e') (a : AccountAddress) (m : MarketId) :
    realizedOf e'.state a m = realizedOf e.state a m + reportedBy a m f := by
  obtain ⟨vm, hvm, hprice⟩ := bind_inv hprice
  obtain ⟨vt, hvt, hprice⟩ := bind_inv hprice
  obtain ⟨_, -, hprice⟩ := bind_inv hprice
  obtain ⟨_, -, hprice⟩ := bind_inv hprice
  obtain ⟨_, -, hprice⟩ := bind_inv hprice
  obtain ⟨_, -, hprice⟩ := bind_inv hprice
  have hreport : reportedBy a m f = if order.marketId = m then
      (if best.owner = a then vm else 0) + (if order.owner = a then vt else 0) else 0 := by
    rw [← pure_inv hprice]
    rfl
  obtain rfl := pure_inv hprice
  obtain ⟨hmaker, hmakerNone⟩ := previewPnl_spec hvm
  obtain ⟨htaker, htakerNone⟩ := previewPnl_spec hvt
  obtain ⟨s₁, s₂, h1, h2, hsame⟩ := applyFill_legs h
  have hwf₁ : PositionsWF s₁ := (PosWrites.of_fill rfl h1).wf hwf
  rw [realizedOf_congr (getPosition_congr hsame a m), hreport]
  by_cases hm : order.marketId = m
  · subst hm
    -- the maker's leg leaves the taker's position, which is priced before it
    have htakerKept : s₁.getPosition order.owner order.marketId =
        e.state.getPosition order.owner order.marketId :=
      modifyPosition_elsewhere (fun hc => hown hc.1) h1
    have hmakerLeg : realizedOf s₁ best.owner order.marketId =
        realizedOf e.state best.owner order.marketId + vm :=
      realizedOf_leg hwf h1 hmaker hmakerNone
    have htakerLeg : realizedOf s₂ order.owner order.marketId =
        realizedOf s₁ order.owner order.marketId + vt := realizedOf_leg hwf₁ h2
      (fun p w hp => htaker p w (htakerKept.symm.trans hp))
      (fun hnone => htakerNone (htakerKept.symm.trans hnone))
    rw [if_pos rfl]
    by_cases hbest : best.owner = a
    · subst hbest
      have htakerMade : realizedOf s₂ best.owner order.marketId =
          realizedOf s₁ best.owner order.marketId :=
        realizedOf_congr (modifyPosition_elsewhere (fun hc => hown hc.1.symm) h2)
      rw [if_pos rfl, if_neg (fun hc => hown hc.symm), Int.add_zero]
      exact htakerMade.trans hmakerLeg
    · rw [if_neg hbest, Int.zero_add]
      by_cases horder : order.owner = a
      · subst horder
        rw [if_pos rfl]
        rw [htakerLeg, realizedOf_congr htakerKept]
      · rw [if_neg horder, Int.add_zero]
        exact realizedOf_congr ((modifyPosition_elsewhere (fun hc => horder hc.1) h2).trans
          (modifyPosition_elsewhere (fun hc => hbest hc.1) h1))
  · rw [if_neg hm, Int.add_zero]
    exact realizedOf_congr ((modifyPosition_elsewhere (fun hc => hm hc.2) h2).trans
      (modifyPosition_elsewhere (fun hc => hm hc.2) h1))

/-! ### Runs -/

/-- What a log reports is what was booked, on positions that liquidations spare. -/
def BooksReported (e : Engine) (log : TradeLog) (e' : Engine) : Prop :=
  PositionsWF e.state → PositionsWF e'.state ∧ ∀ a m, LeftAlone a m log →
    realizedOf e'.state a m = realizedOf e.state a m + reported a m log

theorem realizedOf_getOrCreate (s : EngineState) (b : AccountAddress) (k : MarketId)
    (a : AccountAddress) (m : MarketId) :
    realizedOf (s.getOrCreatePosition b k) a m = realizedOf s a m := by
  unfold realizedOf getOrCreatePosition
  split
  · rfl
  · rename_i hnone
    rw [getPosition_setPosition]
    split
    · rename_i heq
      rw [← heq.1, ← heq.2, hnone]
      rfl
    · rfl

theorem realizedOf_settleAccount {t : Timestamp} {rate acc : Decimal} {b : AccountAddress}
    (h : settleAccount k rate acc t e b = .ok e') (a : AccountAddress) (m : MarketId) :
    realizedOf e'.state a m = realizedOf e.state a m := by
  rcases settleAccount_inv h with rfl | ⟨p, payment, p', _, _, _, hp, hset, rfl⟩
  · rfl
  have hkept : p'.realizedPnl = p.realizedPnl := by
    obtain ⟨_, -, hset⟩ := bind_inv hset
    obtain ⟨_, -, hset⟩ := bind_inv hset
    obtain ⟨_, -, hset⟩ := bind_inv hset
    obtain ⟨-, rfl⟩ := pair_inv hset
    rfl
  have hfunded : realizedOf (e.state.setPosition b k p') a m = realizedOf e.state a m := by
    unfold realizedOf
    rw [getPosition_setPosition]
    split
    · rename_i heq
      rw [← heq.1, ← heq.2, hp, Option.map_some, Option.map_some, hkept]
    · rfl
  exact hfunded

/-- Funding leaves the realized PnL. -/
theorem realizedOf_funding {t : Timestamp} {rates : List (MarketId × Decimal)}
    (h : e.processFunding t = .ok (rates, e')) (a : AccountAddress) (m : MarketId) :
    realizedOf e'.state a m = realizedOf e.state a m := by
  obtain ⟨⟨rates₁, e₁⟩, h1, h⟩ := bind_inv h
  obtain ⟨e₂, h2, h⟩ := bind_inv h
  obtain ⟨-, rfl⟩ := pair_inv h
  have hmarkets : realizedOf e₁.state a m = realizedOf e.state a m :=
    foldlM_induction (P := fun x => realizedOf x.2.state a m = realizedOf e.state a m) h1 rfl
      fun k _ x y hx hs => by
        rcases settleMarket_cases hs with ⟨-, hy⟩ | ⟨_, _, s, -, -, hs, -, hy⟩
        · rw [hy]
          exact hx
        · obtain ⟨_, rfl⟩ := modifyMarket_only hs
          rw [hy]
          exact hx
  refine foldlM_induction (P := fun x => realizedOf x.state a m = realizedOf e.state a m) h2
    hmarkets
    fun mr _ x y hx hs => ?_
  unfold settleHolders at hs
  split at hs
  · obtain rfl := pure_inv hs
    exact hx
  · obtain ⟨z, hz, hs⟩ := bind_inv hs
    obtain rfl := pure_inv hs
    exact foldlM_induction (P := fun x => realizedOf x.state a m = realizedOf e.state a m) hz hx
      fun b _ v w hv hs => (realizedOf_settleAccount hs a m).trans hv

/-- Sizes of liquidations are on the scale of sizes. -/
theorem liquidationSize_decimals {l : LiquidationEngine} {p : Position} {market : Market}
    {size price : Decimal} (hp : p.WF)
    (h : l.processLiquidation p market = .ok (some (size, price))) : size.decimals = 8 := by
  unfold LiquidationEngine.processLiquidation at h
  split at h
  · cases pure_inv h
  · obtain ⟨size', hsize, h⟩ := bind_inv h
    obtain ⟨price', -, h⟩ := bind_inv h
    obtain ⟨rfl, rfl⟩ := Prod.mk.inj (Option.some.inj (pure_inv h))
    exact calculateLiquidationSize_decimals hp hsize

theorem booksReported_rule : LogRule BooksReported where
  trans {e e₁ e' l l'} h h' hwf := by
    obtain ⟨hwf₁, h1⟩ := h hwf
    obtain ⟨hwf₂, h2⟩ := h' hwf₁
    refine ⟨hwf₂, fun a m hun => ?_⟩
    rw [h2 a m fun ev hmem => hun ev (List.mem_append_right _ hmem),
      h1 a m fun ev hmem => hun ev (List.mem_append_left _ hmem), reported_append]
    ring
  books h hwf := by
    refine ⟨(PosWrites.of_same h.positions).wf hwf, fun a m _ => ?_⟩
    rw [realizedOf_congr (getPosition_congr h.positions a m)]
    exact (Int.add_zero _).symm
  note {e ev} h hwf := by
    refine ⟨hwf, fun a m _ => ?_⟩
    cases ev with
    | filled => exact h.elim
    | liquidated => exact h.elim
    | _ => exact (Int.add_zero _).symm
  openAccount e a m hwf := by
    refine ⟨(openAccount_posWrites e a m).wf hwf, fun b k _ => ?_⟩
    obtain ⟨_, hsync⟩ := syncAccount_only e a
    have hopened :
        (e.openAccount a m).state = (e.syncAccount a).state.getOrCreatePosition a m := rfl
    rw [hopened, realizedOf_getOrCreate, hsync]
    exact (Int.add_zero _).symm
  fill hown hprice h hwf := by
    refine ⟨(applyFill_posWrites h).wf hwf, fun a m _ => ?_⟩
    rw [reported_fill hwf hown hprice h]
    simp [reported]
  funding h hwf := by
    refine ⟨(processFunding_posWrites h).wf hwf, fun a m _ => ?_⟩
    rw [realizedOf_funding h]
    exact (Int.add_zero _).symm
  liquidation {e e' ord a m market p size price} _ hp hleg h hwf := by
    refine
      ⟨(applyLiquidation_posWrites hwf (liquidationSize_decimals (hwf _ _ _ hp) hleg) h).wf hwf,
      fun b k hun => ?_⟩
    have hkept : e'.state.getPosition b k = e.state.getPosition b k := by
      rcases of_decide_eq_true (hun _ (List.mem_singleton.mpr rfl)) with hk | hkept
      · exact applyLiquidation_other hwf hk.symm h
      · exact hkept
    rw [realizedOf_congr hkept]
    exact (Int.add_zero _).symm
  external {e e'} op hop h hwf := by
    obtain ⟨_, hs⟩ := external_only hop h
    have hkept : e'.state.positions = e.state.positions := by rw [hs]
    refine ⟨(PosWrites.of_same hkept).wf hwf, fun a m _ => ?_⟩
    rw [realizedOf_congr (getPosition_congr hkept a m)]
    exact (Int.add_zero _).symm

/-- **Previews and books agree.** A position reached by fills books for a further fill what
its preview says. So over any run the realized PnL of every position that is neither liquidated
nor deleveraged is the sum of what the fills reported for it: a fill books what it reports,
orders, funding and deposits book nothing, and a liquidation leaves other markets alone. -/
theorem realized_is_reported :
    (∀ fills p p' (f : PositionFill), Position.new.applyFills fills = .ok p → 0 < f.size.value →
      p.applyFill f.size f.price f.isBuy = .ok p' →
      ∃ v, p.calculateFillPnl f.size f.price f.isBuy = .ok v ∧
        v.toRat = p'.realizedPnl.toRat - p.realizedPnl.toRat) ∧
    ∀ e₀ log e a m, Fresh e₀ → RunLog e₀ log e → LeftAlone a m log →
      realizedOf e.state a m = reported a m log := by
  constructor
  · intro fills p p' f hfills _ hfill
    have hscale := applyFills_realized_decimals (p := .new) rfl hfills
    obtain ⟨v, hv, hbooked⟩ := applyFill_preview hscale hfill
    refine ⟨_, hv, ?_⟩
    unfold Decimal.toRat
    rw [hbooked, hscale]
    push_cast
    ring
  · intro e₀ log e a m hfresh hrun hun
    have hempty : realizedOf e₀.state a m = 0 := by
      unfold realizedOf getPosition
      rw [hfresh.no_positions]
      rfl
    have hwf : PositionsWF e₀.state := Reachable.positionsWF ⟨e₀, hfresh, .refl⟩
    rw [(booksReported_rule.run hrun hwf).2 a m hun, hempty, Int.zero_add]

/-- Account 2 sells at 65000 and buys half of it back at 64000: its fills report 50 USDC. That
account 1 is then liquidated in the same market leaves its position alone. -/
theorem realized_is_reported_sale : ∃ (e₀ e : Engine) (log : TradeLog), Fresh e₀ ∧
    RunLog e₀ log e ∧ realizedOf e.state 2 0 = reported 2 0 log ∧ reported 2 0 log = 50000000 ∧
    ¬ LeftAlone 1 0 log := by
  obtain ⟨⟨log, e⟩, hrun, htest⟩ := exists_of_test
    (x := btcLog [.deposit 1 700000000, .deposit 2 1000000000000, .deposit 3 1000000000000,
      .placeOrder 2 (limitOrder .sell .gtc 6500000000000 10000000) 5,
      .placeOrder 1 (limitOrder .buy .gtc 6500000000000 10000000) 6,
      .placeOrder 3 (limitOrder .sell .gtc 6400000000000 5000000) 7,
      .placeOrder 2 (limitOrder .buy .gtc 6400000000000 5000000) 8,
      .placeOrder 2 (limitOrder .sell .gtc 100000000 100000) 9,
      .placeOrder 3 (limitOrder .buy .gtc 100000000 100000) 10, .processLiquidations .sorted])
    (p := fun x => decide (LeftAlone 2 0 x.1 ∧ reported 2 0 x.1 = 50000000 ∧
      ¬ LeftAlone 1 0 x.1)) (by decide +kernel)
  obtain ⟨hleft, hreported, hmoved⟩ := of_decide_eq_true htest
  obtain ⟨e₀, hfresh, hlog⟩ := btcLog_runLog hrun
  exact ⟨e₀, e, log, hfresh, hlog, realized_is_reported.2 e₀ log e 2 0 hfresh hlog hleft,
    hreported, hmoved⟩

/-- A liquidation closes a quarter of account 1's position and no fill reports its loss. -/
theorem liquidation_unreported : ∃ (e₀ e : Engine) (log : TradeLog), Fresh e₀ ∧
    RunLog e₀ log e ∧ realizedOf e.state 1 0 = -169810012 ∧ reported 1 0 log = 0 := by
  obtain ⟨⟨log, e⟩, hrun, htest⟩ := exists_of_test
    (x := btcLog [.deposit 1 700000000, .deposit 2 1000000000000,
      .deposit 3 1000000000000,
      .placeOrder 2 (limitOrder .sell .gtc 6500000000000 10000000) 5,
      .placeOrder 1 (limitOrder .buy .gtc 6500000000000 10000000) 6,
      .placeOrder 2 (limitOrder .sell .gtc 100000000 100000) 7,
      .placeOrder 3 (limitOrder .buy .gtc 100000000 100000) 8,
      .processLiquidations .sorted])
    (p := fun x => decide (realizedOf x.2.state 1 0 = -169810012 ∧ reported 1 0 x.1 = 0))
    (by decide +kernel)
  obtain ⟨hrealized, hreported⟩ := of_decide_eq_true htest
  obtain ⟨e₀, hfresh, hlog⟩ := btcLog_runLog hrun
  exact ⟨e₀, e, log, hfresh, hlog, hrealized, hreported⟩

end Fill

end Engine

end Hypercore
