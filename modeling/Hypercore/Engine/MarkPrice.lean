import Hypercore.Engine.FundingAttribution
import Hypercore.Engine.LogRule
import Hypercore.Engine.Margin
/-!
# Hypercore.Engine.MarkPrice

How far the mark price can leave the range that a market trades in.

The mark price is an average that truncates twice at every fill, so it drifts down. The drift
does not add up: a mark price at or above a multiple of ten raw units stays there as long as all
trades do (`average_mem`), whatever the number of fills. `MarkFollows` carries this bound over a
log, and the log rule over a run.
-/

namespace Hypercore

open Exec Int128

namespace Engine

open EngineState

/-! ### The average -/

/-- Nine tenths of the old mark price and one tenth of a trade, on raw values. -/
def average (old trade : Int) : Int := (old * 9).tdiv 10 + (trade * 1).tdiv 10

/-- **Drift.** The multiple of ten at or below a range bounds the average from below. -/
theorem average_mem {lo hi old trade : Int} (hhi : 0 ≤ hi)
    (hold : 10 * (lo / 10) ≤ old ∧ old ≤ hi) (htrade : lo ≤ trade ∧ trade ≤ hi) :
    10 * (lo / 10) ≤ average old trade ∧ average old trade ≤ hi := by
  have hfloor : 10 * (lo / 10) ≤ lo := Int.mul_ediv_self_le (by decide)
  unfold average
  constructor
  · have hnine : (10 * (9 * (lo / 10))).tdiv 10 ≤ (old * 9).tdiv 10 :=
      Int.tdiv_le_tdiv (by decide) (by omega)
    have hone : (10 * (lo / 10)).tdiv 10 ≤ (trade * 1).tdiv 10 :=
      Int.tdiv_le_tdiv (by decide) (by omega)
    rw [Int.mul_tdiv_cancel_left _ (by decide)] at hnine hone
    omega
  · have hnine : (old * 9).tdiv 10 ≤ (hi * 9).tdiv 10 := Int.tdiv_le_tdiv (by decide) (by omega)
    have hone : (trade * 1).tdiv 10 ≤ (hi * 1).tdiv 10 := Int.tdiv_le_tdiv (by decide) (by omega)
    have hnine' : (hi * 9).tdiv 10 = hi * 9 / 10 := Int.tdiv_eq_ediv_of_nonneg (by omega)
    have hone' : (hi * 1).tdiv 10 = hi * 1 / 10 := Int.tdiv_eq_ediv_of_nonneg (by omega)
    omega

/-! ### One fill -/

/-- The market's mark price has eight decimals and lies in a range, in raw units. -/
def MarkWithin (m : MarketId) (lo hi : Int) (s : EngineState) : Prop :=
  ∃ v, markOf s m = some ⟨v, 8⟩ ∧ lo ≤ v ∧ v ≤ hi

section Fill

variable {s s' : EngineState} {e e' : Engine} {m k : MarketId} {lo hi : Int}

theorem MarkWithin.of_eq (h : MarkWithin m lo hi s) (heq : markOf s' m = markOf s m) :
    MarkWithin m lo hi s' := by
  obtain ⟨v, hv, hrange⟩ := h
  exact ⟨v, heq.trans hv, hrange⟩

theorem markOf_of_markets (h : s'.markets = s.markets) (m : MarketId) :
    markOf s' m = markOf s m := by
  simp only [markOf, getMarket, h]

/-- A write to a market's state, seen from the mark prices. -/
theorem markOf_modifyMarket {f : MarketState → Exec MarketState}
    (h : s.modifyMarket k f = .ok s') : markOf s' m = markOf s m ∨
      k = m ∧ ∃ market st, s.getMarket m = some market ∧ f market.state = .ok st ∧
        markOf s' m = some st.markPrice := by
  rcases modifyMarket_eq_ok h with ⟨-, rfl⟩ | ⟨market, st, hm, hst, rfl⟩
  · exact .inl rfl
  · by_cases hk : k = m
    · subst hk
      exact .inr ⟨rfl, market, st, hm, hst, by simp [markOf, getMarket]⟩
    · exact .inl (by simp only [markOf, getMarket, FinMap.get_insert, if_neg hk])

/-- A write that leaves the mark price of the state. -/
theorem markOf_kept {f : MarketState → Exec MarketState} (h : s.modifyMarket k f = .ok s')
    (hf : ∀ st st', f st = .ok st' → st'.markPrice = st.markPrice) (m : MarketId) :
    markOf s' m = markOf s m := by
  rcases markOf_modifyMarket (m := m) h with heq | ⟨-, market, st, hm, hst, heq⟩
  · exact heq
  · rw [heq, hf _ _ hst, markOf, hm]
    rfl

/-- Before the average is taken, a fill leaves the mark prices. -/
theorem applyFill_average {fill : Fill} (h : e.applyFill fill = .ok e') :
    ∃ s s', (∀ k, markOf s k = markOf e.state k) ∧
      s.updateMarkPrice fill.marketId (fillPrice fill) = .ok s' ∧
      ∀ k, markOf e'.state k = markOf s' k := by
  obtain ⟨s₁, s₂, s₃, s₄, u, h1, h2, h3, h4, rfl⟩ := applyFill_steps h
  obtain ⟨t₁, t₂, dl, ds, g1, g2, g3⟩ := fillPositions_steps h1
  obtain ⟨s, h4, h5⟩ := bind_inv h4
  obtain ⟨_, rfl⟩ := modifyPosition_only g1
  obtain ⟨_, rfl⟩ := modifyPosition_only g2
  obtain ⟨_, rfl⟩ := modifyAccount_only h2
  obtain ⟨_, rfl⟩ := modifyAccount_only h3
  refine ⟨s, s₄, fun k => ?_, h5, fun k => ?_⟩
  · have htime : markOf s k = markOf s₁ k := by
      refine (markOf_kept h4 (fun st st' hst => ?_) k).trans (markOf_of_markets rfl k)
      obtain rfl := pure_inv hst
      rfl
    have hinterest : markOf s₁ k = markOf e.state k := by
      refine (markOf_kept g3 (fun st st' hst => ?_) k).trans (markOf_of_markets rfl k)
      obtain ⟨_, -, hst⟩ := bind_inv hst
      obtain ⟨_, -, hst⟩ := bind_inv hst
      obtain rfl := pure_inv hst
      rfl
    exact htime.trans hinterest
  · obtain ⟨_, _, _, _, _, hrecord⟩ := fillRecord_writes s₄ fill
    exact markOf_of_markets (by rw [hrecord]) k

/-- The new mark price: the trade after a mark price of zero, else the average. -/
theorem updateMarkPrice_mark {v p : Int} (hv : markOf s m = some ⟨v, 8⟩)
    (h : s.updateMarkPrice m ⟨p, 8⟩ = .ok s') :
    markOf s' m = some ⟨if v = 0 then p else average v p, 8⟩ := by
  unfold updateMarkPrice at h
  rcases modifyMarket_eq_ok h with ⟨hnone, -⟩ | ⟨market, st, hm, hst, rfl⟩
  · simp [markOf, hnone] at hv
  · have hmark : market.state.markPrice = ⟨v, 8⟩ := by simpa [markOf, hm] using hv
    rw [hmark] at hst
    have hnew : st.markPrice = ⟨if v = 0 then p else average v p, 8⟩ := by
      split at hst
      · rename_i hzero
        obtain rfl := pure_inv hst
        rw [if_pos (Decimal.isZero_iff.mp hzero)]
      · rename_i hzero
        rw [if_neg (fun h0 => hzero (Decimal.isZero_iff.mpr h0))]
        obtain ⟨trade, htrade, hst⟩ := bind_inv hst
        obtain rfl := Except.ok.inj htrade
        obtain ⟨old, hold, hst⟩ := bind_inv hst
        obtain ⟨new, hnew, hst⟩ := bind_inv hst
        obtain ⟨sum, hsum, hst⟩ := bind_inv hst
        obtain rfl := pure_inv hst
        obtain ⟨-, -, rfl⟩ := Decimal.mul_eq_ok.mp hold
        obtain ⟨-, -, rfl⟩ := Decimal.mul_eq_ok.mp hnew
        obtain ⟨-, rfl⟩ := Decimal.add_eq_ok.mp hsum
        rfl
    simp [markOf, getMarket, hnew]

theorem updateMarkPrice_other {p : Decimal} (hk : k ≠ m)
    (h : s.updateMarkPrice k p = .ok s') : markOf s' m = markOf s m := by
  rcases markOf_modifyMarket (m := m) h with heq | ⟨rfl, -⟩
  · exact heq
  · exact absurd rfl hk

/-- **Fill lemma.** A fill in the range keeps the mark price between the multiple of ten below
the range and its upper end. -/
theorem applyFill_markWithin {fill : Fill} (hhi : 0 ≤ hi)
    (h0 : MarkWithin m (10 * (lo / 10)) hi e.state)
    (hrange : fill.marketId = m → lo ≤ (fillPrice fill).value ∧ (fillPrice fill).value ≤ hi)
    (h : e.applyFill fill = .ok e') : MarkWithin m (10 * (lo / 10)) hi e'.state := by
  obtain ⟨s, s', hbefore, hupdate, hafter⟩ := applyFill_average h
  obtain ⟨v, hv, hlo, hhi'⟩ := h0.of_eq (hbefore m)
  refine MarkWithin.of_eq ?_ (hafter m)
  by_cases hk : fill.marketId = m
  · subst hk
    have htrade := hrange rfl
    have hfloor : 10 * (lo / 10) ≤ lo := Int.mul_ediv_self_le (by decide)
    refine ⟨_, updateMarkPrice_mark hv hupdate, ?_⟩
    split
    · exact ⟨hfloor.trans htrade.1, htrade.2⟩
    · exact average_mem hhi ⟨hlo, hhi'⟩ htrade
  · exact ⟨v, (updateMarkPrice_other hk hupdate).trans hv, hlo, hhi'⟩

/-- Funding leaves the mark prices. -/
theorem processFunding_mark {t : Timestamp} {rates : List (MarketId × Decimal)}
    (h : e.processFunding t = .ok (rates, e')) (m : MarketId) :
    markOf e'.state m = markOf e.state m := by
  obtain ⟨⟨rates₁, e₁⟩, h1, h⟩ := bind_inv h
  obtain ⟨e₂, h2, h⟩ := bind_inv h
  obtain ⟨-, rfl⟩ := pair_inv h
  refine (markOf_of_markets (settleRates_markets h2) m).trans ?_
  refine foldlM_induction (P := fun x => markOf x.2.state m = markOf e.state m) h1 rfl ?_
  intro k _ x y hx hs
  rcases settleMarket_cases hs with ⟨-, hy⟩ | ⟨_, _, s, -, -, hs, -, hy⟩
  · rw [hy]
    exact hx
  · rw [hy]
    refine (markOf_kept hs (fun st st' hst => ?_) m).trans hx
    obtain ⟨_, -, hst⟩ := bind_inv hst
    obtain ⟨_, -, hst⟩ := bind_inv hst
    obtain ⟨_, -, hst⟩ := bind_inv hst
    obtain ⟨_, -, hst⟩ := bind_inv hst
    obtain ⟨_, -, hst⟩ := bind_inv hst
    obtain rfl := pure_inv hst
    rfl

end Fill

/-! ### Runs -/

/-- An event is no fill of a market, or one with a price in a range, in raw units. -/
def PricedEvent (m : MarketId) (lo hi : Int) : TradeEvent → Prop
  | .filled f _ => f.marketId = m → lo ≤ (fillPrice f).value ∧ (fillPrice f).value ≤ hi
  | _ => True

/-- Every fill of a market in a log has a price in a range. -/
def PricedWithin (m : MarketId) (lo hi : Int) (log : TradeLog) : Prop :=
  ∀ ev ∈ log, PricedEvent m lo hi ev

instance (m : MarketId) (lo hi : Int) : DecidablePred (PricedEvent m lo hi)
  | .filled f _ => inferInstanceAs
    (Decidable (f.marketId = m → lo ≤ (fillPrice f).value ∧ (fillPrice f).value ≤ hi))
  | .stored _ | .taken .. | .submitted .. | .cancelled _ | .liquidated .. => .isTrue trivial

instance (m : MarketId) (lo hi : Int) (log : TradeLog) : Decidable (PricedWithin m lo hi log) :=
  List.decidableBAll _ _

/-- The mark price is in a band, if it was at the start, after every fill that ends a
stretch of fills priced in the range, and at the end. -/
def MarkFollows (m : MarketId) (lo hi : Int) (e : Engine) (log : TradeLog) (e' : Engine) : Prop :=
  MarkWithin m (10 * (lo / 10)) hi e.state →
    (∀ pre f s post, log = pre ++ .filled f s :: post →
      PricedWithin m lo hi (pre ++ [.filled f s]) → MarkWithin m (10 * (lo / 10)) hi s) ∧
    (PricedWithin m lo hi log → MarkWithin m (10 * (lo / 10)) hi e'.state)

section Rule

variable {m : MarketId} {lo hi : Int} {e e' e'' : Engine} {log log' : TradeLog}

theorem PricedWithin.left (h : PricedWithin m lo hi (log ++ log')) : PricedWithin m lo hi log :=
  fun ev hev => h ev (List.mem_append_left _ hev)

theorem PricedWithin.right (h : PricedWithin m lo hi (log ++ log')) :
    PricedWithin m lo hi log' :=
  fun ev hev => h ev (List.mem_append_right _ hev)

/-- No fill is logged, and the markets keep their mark prices. -/
theorem MarkFollows.of_kept (hmark : markOf e'.state m = markOf e.state m)
    (hlog : ∀ f s, .filled f s ∉ log) : MarkFollows m lo hi e log e' := by
  intro h0
  refine ⟨fun pre f s post heq _ => ?_, fun _ => h0.of_eq hmark⟩
  exact absurd (heq ▸ List.mem_append_right pre List.mem_cons_self) (hlog f s)

theorem MarkFollows.of_markets (hmarkets : e'.state.markets = e.state.markets)
    (hlog : ∀ f s, .filled f s ∉ log) : MarkFollows m lo hi e log e' :=
  .of_kept (markOf_of_markets hmarkets m) hlog

theorem MarkFollows.trans (h : MarkFollows m lo hi e log e')
    (h' : MarkFollows m lo hi e' log' e'') : MarkFollows m lo hi e (log ++ log') e'' := by
  intro h0
  obtain ⟨hfills, hend⟩ := h h0
  refine ⟨fun pre f s post heq hpriced => ?_, fun hpriced => ?_⟩
  · rcases List.append_eq_append_iff.mp heq with ⟨mid, rfl, hlog'⟩ | ⟨mid, rfl, hlog'⟩
    · rw [List.append_assoc] at hpriced
      exact (h' (hend hpriced.left)).1 mid f s post hlog' hpriced.right
    · cases mid with
      | nil =>
        rw [List.append_nil] at hend
        exact (h' (hend hpriced.left)).1 [] f s post hlog'.symm hpriced.right
      | cons ev mid =>
        obtain ⟨rfl, rfl⟩ := List.cons.inj hlog'
        exact hfills pre f s mid rfl hpriced
  · exact (h' (hend hpriced.left)).2 hpriced.right

/-- What an event does to the mark prices of the run it happens in. -/
theorem markFollows_rule (m : MarketId) {lo hi : Int} (hhi : 0 ≤ hi) :
    LogRule (MarkFollows m lo hi) where
  trans h h' := h.trans h'
  books h := .of_markets h.markets (by simp)
  note {e ev} h := by
    refine .of_markets rfl fun f s hmem => ?_
    obtain rfl := List.mem_singleton.mp hmem
    exact h
  openAccount e a k := by
    obtain ⟨_, _, h⟩ := openAccount_only e a k
    exact .of_markets (by rw [h]) (by simp)
  fill {e e' order best size f config} _ _ h := by
    intro h0
    have hone : PricedWithin m lo hi [.filled f e'.state] → MarkWithin m (10 * (lo / 10)) hi
        e'.state := fun hpriced =>
      applyFill_markWithin hhi h0 (hpriced _ List.mem_cons_self) h
    refine ⟨fun pre g s post heq hpriced => ?_, hone⟩
    -- the log has one event, so the stretch that ends with `g` is the log
    cases pre with
    | nil =>
      obtain ⟨hev, rfl⟩ := List.cons.inj heq
      cases hev
      exact hone hpriced
    | cons ev pre => simp at heq
  funding h := .of_kept (processFunding_mark h m) (by simp)
  liquidation _ _ _ h := by
    obtain ⟨_, _, _, _, _, rfl⟩ := applyLiquidation_only h
    exact .of_markets rfl (by simp)
  external {e e'} op hop h := by
    obtain ⟨_, hs⟩ := external_only hop h
    exact .of_markets (by rw [hs]) (by simp)

end Rule

/-- **Mark price.** As long as the fills of a market have been priced within a range that the
positive initial mark price lies in, the mark price is at most ten raw units below the range
after a fill, and never above it. -/
theorem mark_price_follows_trades {e₀ e : Engine} {log : TradeLog} {m : MarketId} {v lo hi : Int}
    (h : RunLog e₀ log e) (hmark : markOf e₀.state m = some ⟨v, 8⟩) (hpos : 0 < v)
    (hlo : lo ≤ v) (hhi : v ≤ hi) {pre post : TradeLog} {f : Fill} {s : EngineState}
    (hlog : log = pre ++ .filled f s :: post)
    (hpriced : PricedWithin m lo hi (pre ++ [.filled f s])) :
    MarkWithin m (lo - 10) hi s := by
  have hfloor : 10 * (lo / 10) ≤ lo := Int.mul_ediv_self_le (by decide)
  have hband : MarkWithin m (10 * (lo / 10)) hi e₀.state := ⟨v, hmark, by omega, hhi⟩
  obtain ⟨hfills, -⟩ := (markFollows_rule m (by omega)).run h hband
  obtain ⟨w, hw, hlow, hhigh⟩ := hfills pre f s post hlog hpriced
  exact ⟨w, hw, by omega, hhigh⟩

/-- The last event of a log is a fill. -/
def endsFilled (log : TradeLog) : Bool :=
  match log.getLast? with
  | some (.filled ..) => true
  | _ => false

theorem of_endsFilled {log : TradeLog} (h : endsFilled log = true) :
    ∃ pre f s, log = pre ++ [.filled f s] := by
  unfold endsFilled at h
  split at h
  · rename_i f s hlast
    obtain ⟨pre, rfl⟩ := List.getLast?_eq_some_iff.mp hlast
    exact ⟨pre, f, s, rfl⟩
  · cases h

/-- The fresh BTC engine, and a logged run from it. -/
def btcLogFrom (ops : List Op) : Exec (Engine × TradeLog × Engine) := do
  let e₀ ← btcEngine none
  let x ← ops.foldlM (fun s op => stepOnLog op s) ([], e₀)
  return (e₀, x)

/-- Two trades below the initial mark price of 65000, the second of them at 64000. -/
theorem mark_price_follows_two_trades : ∃ (e₀ e : Engine) (pre : TradeLog) (f : Fill)
    (s : EngineState), RunLog e₀ (pre ++ [.filled f s]) e ∧
    PricedWithin 0 6400000000000 6500000000000 (pre ++ [.filled f s]) ∧
    MarkWithin 0 (6400000000000 - 10) 6500000000000 s := by
  obtain ⟨⟨e₀, log, e⟩, hrun, htest⟩ := exists_of_test
    (x := btcLogFrom [.deposit 1 1000000000000, .deposit 2 1000000000000,
      .placeOrder 2 (limitOrder .sell .gtc 6450000000000 10000000) 5,
      .placeOrder 1 (limitOrder .buy .gtc 6450000000000 10000000) 6,
      .placeOrder 2 (limitOrder .sell .gtc 6400000000000 10000000) 7,
      .placeOrder 1 (limitOrder .buy .gtc 6400000000000 10000000) 8])
    (p := fun x => decide (markOf x.1.state 0 = some ⟨6500000000000, 8⟩ ∧
      PricedWithin 0 6400000000000 6500000000000 x.2.1 ∧ endsFilled x.2.1 = true))
    (by decide +kernel)
  obtain ⟨hmark, hpriced, hends⟩ := of_decide_eq_true htest
  obtain ⟨pre, f, s, rfl⟩ := of_endsFilled hends
  obtain ⟨e₁, h1, hfold⟩ := bind_inv hrun
  obtain ⟨x, hfold, hx⟩ := bind_inv hfold
  obtain ⟨rfl, rfl⟩ := pair_inv hx
  have hlog : RunLog e₁ (pre ++ [.filled f s]) e := .of_foldlM (fun _ _ _ => trivial) hfold
  exact ⟨e₁, e, pre, f, s, hlog, hpriced,
    mark_price_follows_trades hlog hmark (by decide) (by decide) (by decide) rfl hpriced⟩

end Engine

end Hypercore
