import Hypercore.Engine.Holders
import Hypercore.Engine.OpenInterest
/-!
# Hypercore.Engine.OpenInterestRun

Open interest along runs.

A fill moves open interest rightly when both of its parties have a position. The taker's
is created when its order is checked, and every maker has one (`BookHolders`).

Liquidation and auto-deleverage move positions alone. The run theorem therefore asks
that nothing is liquidated (`QuietPass`).
-/

namespace Hypercore

open Exec Int128

namespace Engine

open EngineState

/-! ### Submissions -/

theorem openAccount_sizesKept (e : Engine) (a : AccountAddress) (m : MarketId) :
    SizesKept e.state (e.openAccount a m).state := by
  obtain ⟨accounts, h⟩ := syncAccount_only e a
  have hsync : SizesKept e.state (e.syncAccount a).state := by
    rw [h]
    exact .of_same rfl rfl
  refine hsync.trans ?_
  show SizesKept (e.syncAccount a).state ((e.syncAccount a).state.getOrCreatePosition a m)
  unfold getOrCreatePosition
  split
  · exact .refl _
  · rename_i hnone
    refine .of_setPosition ?_
    unfold sizeAt
    rw [hnone]
    rfl

theorem SizesKept.of_orders {s s' : EngineState} (h : OrdersOnly s s') : SizesKept s s' := by
  obtain ⟨_, _, _, rfl⟩ := h
  exact .of_same rfl rfl

variable {e e' : Engine} {a : AccountAddress} {t : Timestamp} {m : MarketId} {ord : HashOrder}

theorem executeOrder_openInterest {market : Market} {order : Order}
    {r : Except Error (Order × List Fill)} (hs : OpenInterestOk e.state)
    (hholders : BookHolders e.state)
    (hpos : (e.state.getPosition order.owner order.marketId).isSome)
    (h : e.executeOrder market order = .ok (r, e')) : OpenInterestOk e'.state := by
  refine executeOrder_rule (P := fun e => OpenInterestOk e.state) hs ?_ h
  intro book r₁ book' hm hproc
  have hs₁ : OpenInterestOk (e.state.setOrderbook order.marketId book') :=
    (SizesKept.of_same rfl rfl).openInterestOk hs
  refine ⟨hs₁, fun updated fills fills' e₁ s hr heq hsettle => ?_⟩
  subst hr heq
  obtain ⟨-, hok⟩ := MatchingEngine.processOrder_all
    (P := fun o => (e.state.getPosition o.owner order.marketId).isSome)
    (fun _ _ _ ho hfill => by rwa [(Order.fill_eq_ok hfill).1]) (hholders _ _ hm)
    (fun o' ho' => by rw [ho'.1]; exact hpos) hproc
  obtain ⟨-, hfills⟩ := hok updated fills rfl
  have hmakers := syncMakers_only (e.state.setOrderbook order.marketId book') updated.marketId fills
  have hsame : ∀ a m, (syncMakers (e.state.setOrderbook order.marketId book')
      updated.marketId fills).getPosition a m = e.state.getPosition a m := by
    obtain ⟨_, _, _, h⟩ := hmakers
    rw [h]
    exact fun _ _ => rfl
  have hready : ∀ f ∈ fills, Settleable (syncMakers
      (e.state.setOrderbook order.marketId book') updated.marketId fills) f := by
    intro f hf
    obtain ⟨best, size, hbest, hne, rfl⟩ := hfills f hf
    exact ⟨hne, by rw [hsame]; exact hbest, by rw [hsame]; exact hpos⟩
  obtain ⟨hoi, -⟩ := settleFills_openInterest
    ((SizesKept.of_orders hmakers).openInterestOk hs₁) hready hsettle
  exact ⟨hoi, fun _ s' hadd => (SizesKept.of_orders (addOrder_only hadd)).openInterestOk hoi⟩

/-- **Submission.** -/
theorem submitOrder_openInterest {q : OrderRequest} {r : Except Error (Order × List Fill)}
    (hs : OpenInterestOk e.state) (hholders : BookHolders e.state)
    (h : e.submitOrder a q t = .ok (r, e')) :
    OpenInterestOk e'.state := by
  have hopen := (openAccount_sizesKept e a q.marketId).openInterestOk hs
  have henter : OpenInterestOk (e.enter a q.marketId).state :=
    (SizesKept.of_same rfl rfl).openInterestOk hopen
  have hbooks : BookHolders (e.enter a q.marketId).state :=
    hholders.of_held (openAccount_posWrites e a q.marketId).held
      (openAccount_orderbooks e a q.marketId)
  refine submitOrder_rule (P := fun e => OpenInterestOk e.state) hs hopen (fun s ht => ?_)
    (fun _ _ hexec => executeOrder_openInterest henter hbooks (enter_position e a q.marketId) hexec)
    h
  obtain ⟨_, _, _, rfl⟩ := ht
  exact (SizesKept.of_same rfl rfl).openInterestOk henter

/-! ### Funding -/

theorem settleMarket_sizesKept {rates rates' : List (MarketId × Decimal)}
    (h : settleMarket t (rates, e) m = .ok (rates', e')) : SizesKept e.state e'.state := by
  rcases settleMarket_cases h with ⟨-, rfl⟩ | ⟨market, rate, s, -, -, hs, -, rfl⟩
  · exact .refl _
  · refine SizesKept.of_modifyMarket (fun st st' hst => ?_) hs
    obtain ⟨_, -, hst⟩ := bind_inv hst
    obtain ⟨_, -, hst⟩ := bind_inv hst
    obtain ⟨_, -, hst⟩ := bind_inv hst
    obtain ⟨_, -, hst⟩ := bind_inv hst
    obtain ⟨_, -, hst⟩ := bind_inv hst
    obtain rfl := pure_inv hst
    exact ⟨rfl, rfl⟩

theorem settleAccount_sizesKept {rate acc : Decimal} (h : settleAccount m rate acc t e a = .ok e') :
    SizesKept e.state e'.state := by
  rcases settleAccount_inv h with rfl | ⟨p, payment, p', _, _, _, hp, hset, rfl⟩
  · exact .refl _
  · have hsize : p'.size.value = e.state.sizeAt a m := by
      obtain ⟨_, -, hset⟩ := bind_inv hset
      obtain ⟨_, -, hset⟩ := bind_inv hset
      obtain ⟨_, -, hset⟩ := bind_inv hset
      obtain ⟨-, rfl⟩ := pair_inv hset
      unfold sizeAt
      rw [hp]
      rfl
    exact (SizesKept.of_setPosition hsize).trans (.of_same rfl rfl)

theorem settleHolders_sizesKept {mr : MarketId × Decimal} (h : settleHolders t e mr = .ok e') :
    SizesKept e.state e'.state := by
  unfold settleHolders at h
  split at h
  · obtain rfl := pure_inv h
    exact .refl _
  · obtain ⟨e₁, h1, h⟩ := bind_inv h
    obtain rfl := pure_inv h
    have hfold : SizesKept e.state e₁.state :=
      foldlM_rel (R := fun x y => SizesKept x.state y.state) h1 (fun _ => .refl _)
        (fun _ _ _ => SizesKept.trans) fun _ _ _ _ h => settleAccount_sizesKept h
    exact hfold.trans (.of_same rfl rfl)

theorem processFunding_sizesKept {rates : List (MarketId × Decimal)}
    (h : e.processFunding t = .ok (rates, e')) : SizesKept e.state e'.state := by
  obtain ⟨⟨rates₁, e₁⟩, h1, h⟩ := bind_inv h
  obtain ⟨e₂, h2, h⟩ := bind_inv h
  obtain ⟨-, rfl⟩ := pair_inv h
  have f1 := foldlM_rel (R := fun x y => SizesKept x.2.state y.2.state) h1 (fun _ => .refl _)
    (fun _ _ _ => SizesKept.trans) (fun _ _ _ _ h => settleMarket_sizesKept h)
  exact SizesKept.trans f1 (foldlM_rel (R := fun x y => SizesKept x.state y.state) h2
    (fun _ => .refl _) (fun _ _ _ => SizesKept.trans) fun _ _ _ _ h => settleHolders_sizesKept h)

/-! ### Passes that liquidate nothing -/

/-- Every position that the pass finds underwater has a liquidation size of zero. -/
def LiquidatesNothing (ord : HashOrder) (e : Engine) : Prop :=
  ∀ pairs, findUnderwaterAccounts ord e = .ok pairs → ∀ pair ∈ pairs, ∀ p size,
    e.state.getPosition pair.1 pair.2 = some p →
    e.liquidation.calculateLiquidationSize p = .ok size → size.value = 0

/-- If the operation is a liquidation pass, it liquidates nothing. -/
def QuietPass (e : Engine) (op : Op) : Prop :=
  ∀ ord, op = .processLiquidations ord → LiquidatesNothing ord e

/-- Every position has the size it had. -/
def SameSizes (s s' : EngineState) : Prop :=
  ∀ a m, (s'.getPosition a m).map (·.size) = (s.getPosition a m).map (·.size)

theorem settleResidual_zero {b size price : Decimal} {isBuy : Bool} (hz : size.value = 0)
    (h : settleResidual ord e m b size price isBuy = .ok e') : e' = e := by
  obtain ⟨r, hr, h⟩ := settleResidual_cases h
  obtain ⟨pu, -, hr⟩ := bind_inv hr
  obtain ⟨q, hq, hr⟩ := bind_inv hr
  have hzero := Decimal.toDecimals_zero_value hr (Decimal.mul_zero_value hq hz)
  rcases h with rfl | ⟨hneg, -, -⟩
  · rw [hzero, add_zero]
  · omega

/-- A liquidation of size zero changes no size. -/
theorem applyLiquidation_zero {size price : Decimal} (hz : size.value = 0)
    (h : applyLiquidation ord e a m size price = .ok e') :
    SizesKept e.state e'.state ∧ SameSizes e.state e'.state ∧
      e'.liquidation = e.liquidation := by
  unfold applyLiquidation at h
  dsimp only at h
  split at h
  · obtain rfl := pure_inv h
    exact ⟨.refl _, fun _ _ => rfl, rfl⟩
  · rename_i p hp
    obtain ⟨b, -, h⟩ := bind_inv h
    obtain ⟨e₁, h1, h⟩ := bind_inv h
    obtain ⟨s₂, h2, h⟩ := bind_inv h
    obtain rfl := pure_inv h
    have he₁ : e₁ = e := by
      cases b with
      | none => exact (pure_inv h1).symm
      | some b => exact settleResidual_zero hz h1
    subst he₁
    have htrig := cancelTriggerOrdersForPosition_only (s := s₂) (a := a) (m := m)
    obtain ⟨_, _, _, ht⟩ := htrig
    rcases modifyPosition_eq_ok h2 with ⟨hnone, -⟩ | ⟨p₀, p', hp₀, hfill, rfl⟩
    · rw [hp] at hnone
      exact absurd hnone (by simp)
    · have hsize : p'.size = p₀.size := by
        rw [Position.applyFill_size hfill, hz]
        simp
      have hkept : SizesKept e₁.state (e₁.state.setPosition a m p') := by
        refine .of_setPosition ?_
        unfold sizeAt
        rw [hp₀, hsize]
        rfl
      dsimp only
      rw [ht]
      refine ⟨hkept.trans (.of_same rfl rfl), fun b k => ?_, rfl⟩
      show ((e₁.state.setPosition a m p').getPosition b k).map (·.size) = _
      rw [getPosition_setPosition]
      split
      · rename_i hbk
        obtain ⟨rfl, rfl⟩ := hbk
        rw [hp₀, Option.map_some, Option.map_some, hsize]
      · rfl

theorem calculateLiquidationSize_congr {l : LiquidationEngine} {p p' : Position}
    (h : p'.size = p.size) : l.calculateLiquidationSize p' = l.calculateLiquidationSize p := by
  unfold LiquidationEngine.calculateLiquidationSize Position.absSize
  rw [h]

theorem processLiquidations_nothing {l : Liquidations} (hn : LiquidatesNothing ord e)
    (h : e.processLiquidations ord = .ok (l, e')) :
    SizesKept e.state e'.state := by
  obtain ⟨pairs, hpairs, h⟩ := bind_inv h
  have hnone := hn pairs hpairs
  -- along the pass all sizes, and with them the liquidation sizes, stay what they were
  have hinv := foldlM_induction (P := fun x : Liquidations × Engine =>
      SizesKept e.state x.2.state ∧ SameSizes e.state x.2.state ∧
        x.2.liquidation = e.liquidation) h ⟨.refl _, fun _ _ => rfl, rfl⟩ ?_
  · exact hinv.1
  · rintro pair hpair ⟨l₁, e₁⟩ ⟨l₂, e₂⟩ ⟨hk, hsame, hliq⟩ hstep
    unfold liquidate at hstep
    dsimp only at hstep hk hsame hliq ⊢
    split at hstep
    · rename_i market p hmk hp
      obtain ⟨r, hr, hstep⟩ := bind_inv hstep
      cases r with
      | none =>
        obtain ⟨-, rfl⟩ := pair_inv hstep
        exact ⟨hk, hsame, hliq⟩
      | some q =>
        obtain ⟨size, price⟩ := q
        obtain ⟨e₃, h3, hstep⟩ := bind_inv hstep
        obtain ⟨-, rfl⟩ := pair_inv hstep
        have hz : size.value = 0 := by
          have hp₀ := hsame pair.1 pair.2
          rw [hp] at hp₀
          obtain ⟨p₀, hp₀, hsz⟩ := Option.map_eq_some_iff.mp hp₀.symm
          refine hnone pair hpair p₀ size hp₀ ?_
          unfold LiquidationEngine.processLiquidation at hr
          split at hr
          · exact absurd (pure_inv hr) (by simp)
          · obtain ⟨sz, hsz', hr⟩ := bind_inv hr
            obtain ⟨pr, -, hr⟩ := bind_inv hr
            obtain ⟨rfl, -⟩ := Prod.mk.inj (Option.some.inj (pure_inv hr))
            rw [hliq] at hsz'
            rw [calculateLiquidationSize_congr hsz]
            exact hsz'
        obtain ⟨g1, g2, g3⟩ := applyLiquidation_zero hz h3
        exact ⟨hk.trans g1, fun a m => (g2 a m).trans (hsame a m), g3.trans hliq⟩
    · obtain ⟨-, rfl⟩ := pair_inv hstep
      exact ⟨hk, hsame, hliq⟩

/-! ### Runs -/

/-- **Step lemma.** Every operation except a pass that liquidates something keeps open
interest right. -/
theorem step_openInterest {op : Op} (hwf : PositionsWF e.state) (hs : OpenInterestOk e.state)
    (hholders : BookHolders e.state) (hquiet : QuietPass e op) (h : step op e = .ok e') :
    OpenInterestOk e'.state := by
  have hmeets := submitsMeet_of_forall (G := fun _ _ _ => True) (fun _ _ _ => trivial) e op
  have hkept : ∀ {s s' : EngineState}, SizesKept s s' → OpenInterestOk s → OpenInterestOk s' :=
    fun hk hs => hk.openInterestOk hs
  refine (step_rule (Q := fun s => OpenInterestOk s ∧ BookHolders s)
    (fun s m id hw => ⟨hkept (SizesKept.of_orders (removeOrder_only s m id)) hw.1,
      hw.2.removeOrder m id⟩)
    ⟨hs, hholders⟩ hmeets ?_ ?_ ?_ ?_ ?_ h).1
  · exact fun _ _ _ _ _ _ hw _ h =>
      ⟨submitOrder_openInterest hw.1 hw.2 h, submitOrder_holders hw.2 h⟩
  · intro s s' hw ht
    refine ⟨?_, hw.2.of_triggers ht⟩
    obtain ⟨_, _, _, rfl⟩ := ht
    exact hkept (.of_same rfl rfl) hw.1
  · exact fun _ _ _ => ⟨hkept (.of_same rfl rfl) hs, hholders.of_held (.of_same rfl) rfl⟩
  · exact fun _ _ _ h => ⟨hkept (processFunding_sizesKept h) hs,
      hholders.of_upkept (processFunding_only h) (processFunding_posWrites h)⟩
  · exact fun ord _ _ hop h => ⟨hkept (processLiquidations_nothing (hquiet ord hop) h) hs,
      hholders.of_upkept (processLiquidations_only h) (processLiquidations_posWrites hwf h)⟩

/-- A fresh engine has markets without open interest, and no positions. -/
theorem Fresh.openInterest (h : Fresh e) : OpenInterestOk e.state := by
  have hsum : ∀ g m, sumSizes g e.state m = 0 := by
    intro g m
    unfold sumSizes
    rw [h.no_positions]
    exact FinMap.total_empty _
  intro m mk hk
  obtain ⟨config, price, t, -, rfl⟩ := h.markets_new m mk hk
  exact ⟨(hsum _ m).symm, (hsum _ m).symm, hsum _ m⟩

/-- With sizes that sum to zero the two sides are equal. -/
theorem sides_equal {s : EngineState} (h : sumSizes (fun x => x) s m = 0) :
    sumSizes (max · 0) s m = sumSizes (fun x => max (-x) 0) s m := by
  have hadd := FinMap.total_add
    (fun (_ : AccountAddress) (ps : FinMap MarketId Position) =>
      ((ps[m]?).map (·.size.value)).getD 0)
    (fun _ ps => max (-((ps[m]?).map (·.size.value)).getD 0) 0) s.positions
  have hmax : sumSizes (max · 0) s m = FinMap.total (fun _ ps =>
      ((ps[m]?).map (·.size.value)).getD 0 +
        max (-((ps[m]?).map (·.size.value)).getD 0) 0) s.positions := by
    refine FinMap.total_congr fun a ps _ => ?_
    dsimp only
    omega
  unfold sumSizes at h
  rw [hmax, hadd, h, zero_add]
  rfl

/-- **Run theorem.** Along every run whose liquidation passes liquidate nothing, open interest is
the sum of sizes on each side, the sides are equal and the sizes cancel. A fill moves it by what
it moves the sizes, as both parties have a position by then (`BookHolders`); funding moves
neither. -/
theorem open_interest_of_quiet_run {e : Engine}
    (h : ReachableWith QuietPass e) (m : MarketId) (mk : Market)
    (hm : e.state.getMarket m = some mk) :
    mk.state.openInterestLong.value = sumSizes (max · 0) e.state m ∧
      mk.state.openInterestShort.value = sumSizes (fun x => max (-x) 0) e.state m ∧
      mk.state.openInterestLong.value = mk.state.openInterestShort.value ∧
      sumSizes (fun x => x) e.state m = 0 := by
  have hs : Reachable e ∧ OpenInterestOk e.state := by
    refine h.induction (P := fun e => Reachable e ∧ OpenInterestOk e.state)
      (fun e hf => ⟨⟨e, hf, .refl⟩, hf.openInterest⟩) fun e op e' hs hq hstep => ?_
    obtain ⟨⟨e₀, hf, hr⟩, hoi⟩ := hs
    have hreach : Reachable e := ⟨e₀, hf, hr⟩
    exact ⟨⟨e₀, hf, hr.tail op trivial hstep⟩,
      step_openInterest hreach.positionsWF hoi hreach.bookHolders hq hstep⟩
  obtain ⟨h1, h2, h3⟩ := hs.2 m mk hm
  exact ⟨h1, h2, by rw [h1, h2, sides_equal h3], h3⟩

/-- A run with a trade. -/
theorem open_interest_after_trade : ∃ (e : Engine) (mk : Market), e.state.getMarket 0 = some mk ∧
    mk.state.openInterestLong.value = 10000000 ∧
    mk.state.openInterestLong.value = mk.state.openInterestShort.value := by
  obtain ⟨e, he, htest⟩ := exists_of_test (x := btcRun none [.deposit 1 1000000000000,
      .deposit 2 1000000000000, .placeOrder 2 (limitOrder .sell .gtc 6500000000000 10000000) 5,
      .placeOrder 1 (limitOrder .buy .gtc 6500000000000 10000000) 6])
    (p := fun e => match e.state.getMarket 0 with
      | some market => decide (market.state.openInterestLong.value = 10000000)
      | none => false) (by decide +kernel)
  split at htest
  · rename_i mk hm
    have hreach := btcRun_reachableWith QuietPass (by simp [QuietPass]) he
    exact ⟨e, mk, hm, of_decide_eq_true htest, (open_interest_of_quiet_run hreach 0 mk hm).2.2.1⟩
  · exact absurd htest (by simp)

/-- A liquidation takes a position down and leaves open interest where it was: account 1
buys with all its margin, two later trades move the mark price, and the liquidation pass
closes a part that nobody takes over. -/
theorem open_interest_after_liquidation : ∃ (e : Engine) (mk : Market),
    Reachable e ∧ e.state.getMarket 0 = some mk ∧
    mk.state.openInterestLong.value = 10100000 ∧ sumSizes (max · 0) e.state 0 = 7590341 ∧
    sumSizes (fun x => x) e.state 0 = -2509659 := by
  obtain ⟨e, he, htest⟩ := exists_of_test (x := btcRun none [.deposit 1 660000000,
      .deposit 2 1000000000000, .deposit 3 1000000000000,
      .placeOrder 2 (limitOrder .sell .gtc 6500000000000 10000000) 5,
      .placeOrder 1 (limitOrder .buy .gtc 6500000000000 10000000) 6,
      .placeOrder 2 (limitOrder .sell .gtc 100000000 100000) 7,
      .placeOrder 3 (limitOrder .buy .gtc 100000000 100000) 8,
      .processLiquidations .sorted])
    (p := fun e => match e.state.getMarket 0 with
      | some market => decide (market.state.openInterestLong.value = 10100000 ∧
          sumSizes (max · 0) e.state 0 = 7590341 ∧ sumSizes (fun x => x) e.state 0 = -2509659)
      | none => false) (by decide +kernel)
  split at htest
  · rename_i mk hm
    exact ⟨e, mk, btcRun_reachable he, hm, of_decide_eq_true htest⟩
  · exact absurd htest (by simp)

end Engine

end Hypercore
