import Hypercore.Engine.Positions
/-!
# Hypercore.Engine.LiquidationValue

What a liquidation pass does to the total value of the engine: balances, unrealized
PnL at the mark prices, and the insurance fund.

**Everything is read off the engine before the pass.** No position is found twice
(`findUnderwaterAccounts_nodup`), and as long as the insurance fund covers the deficits
no other position is written. So each liquidation closes what `liquidationLeg` computes
from the state the pass starts in, and the total moves by the sum of the gaps
(`liquidations_total`).
-/

namespace Hypercore

open Exec Int128 Position

namespace EngineState

/-! ### Totals -/

/-- Unrealized PnL of a position at the mark price of its market, in micro-USDC. -/
def worthAt (s : EngineState) (m : MarketId) (p : Position) : Int :=
  ((s.getMarket m).map fun market => toUsdc (p.rawPnl market.state.markPrice)).getD 0

/-- Unrealized PnL of all accounts. -/
def unrealizedTotal (s : EngineState) : Int :=
  FinMap.total (fun _ ps => FinMap.total s.worthAt ps) s.positions

/-- Balances of all accounts. -/
def balanceTotal (s : EngineState) : Int :=
  FinMap.total (fun _ (acc : AccountState) => acc.balance) s.accounts

/-- Balances, unrealized PnL and the insurance fund. -/
def totalValue (s : EngineState) : Int :=
  s.balanceTotal + s.unrealizedTotal + s.insuranceFund

/-- **Update rule.** Writing a position moves the total by the difference in worth. -/
theorem unrealizedTotal_setPosition {s : EngineState} {a : AccountAddress} {m : MarketId}
    (p' : Position) : (s.setPosition a m p').unrealizedTotal =
      s.unrealizedTotal - ((s.getPosition a m).map (s.worthAt m)).getD 0 + s.worthAt m p' := by
  have hinner : ∀ ps : FinMap MarketId Position, FinMap.total s.worthAt (ps.insert m p') =
      FinMap.total s.worthAt ps - ((ps[m]?).map (s.worthAt m)).getD 0 + s.worthAt m p' :=
    fun ps => FinMap.total_insert s.worthAt ps m p'
  show FinMap.total (fun _ ps => FinMap.total s.worthAt ps)
    (s.positions.insert a (((s.positions[a]?).getD ∅).insert m p')) = _
  rw [FinMap.total_insert, hinner]
  unfold unrealizedTotal getPosition FinMap.weight
  cases s.positions[a]? with
  | none => simp
  | some ps =>
    simp only [Option.map_some, Option.getD_some, Option.bind_some]
    omega

end EngineState

namespace Engine

open EngineState

/-! ### No position is found twice -/

theorem candidates_nodup (ord : HashOrder) (s : EngineState) :
    ((candidates ord s).map fun c => (c.account, c.marketId)).Nodup := by
  have hkeys : ∀ {κ ν : Type} [Ord κ] [Std.TransOrd κ] [Std.LawfulEqOrd κ] (m : FinMap κ ν),
      ((ord.visit m.toList).map Prod.fst).Nodup := fun m =>
    ((ord.perm m.toList).map Prod.fst).nodup_iff.mpr (FinMap.nodup_keys m)
  -- the candidates of one account, by their markets
  have hone : ∀ acc : AccountAddress × AccountState, ∀ l : List (MarketId × Position),
      (l.map Prod.fst).Nodup →
      ((l.filterMap fun q =>
        if q.2.isEmpty then none
        else (s.getMarket q.1).map fun market => (⟨acc.1, q.1, q.2, market⟩ :
          Candidate)).map fun c => (c.account, c.marketId)).Nodup ∧
      ∀ c ∈ l.filterMap fun q =>
        if q.2.isEmpty then none
        else (s.getMarket q.1).map fun market => (⟨acc.1, q.1, q.2, market⟩ :
          Candidate), c.account = acc.1 ∧ c.marketId ∈ l.map Prod.fst := by
    intro acc l hl
    induction l with
    | nil => simp
    | cons q l ih =>
      rw [List.map_cons, List.nodup_cons] at hl
      obtain ⟨hnd, hmem⟩ := ih hl.2
      obtain ⟨mid, pos⟩ := q
      rw [List.filterMap_cons]
      split
      · exact ⟨hnd, fun c hc => ⟨(hmem c hc).1, .tail _ (hmem c hc).2⟩⟩
      · rename_i c hc
        have hc' : c.account = acc.1 ∧ c.marketId = mid := by
          dsimp only at hc
          split at hc
          · exact absurd hc (by simp)
          · obtain ⟨mk₁, -, rfl⟩ := Option.map_eq_some_iff.mp hc
            exact ⟨rfl, rfl⟩
        refine ⟨?_, ?_⟩
        · rw [List.map_cons, List.nodup_cons]
          refine ⟨fun hin => ?_, hnd⟩
          obtain ⟨d, hd, heq⟩ := List.mem_map.mp hin
          have hm := (hmem d hd).2
          rw [(Prod.mk.inj heq).2, hc'.2] at hm
          exact hl.1 hm
        · intro d hd
          rcases List.mem_cons.mp hd with rfl | hd
          · exact ⟨hc'.1, by rw [hc'.2]; exact .head _⟩
          · exact ⟨(hmem d hd).1, .tail _ (hmem d hd).2⟩
  unfold candidates
  rw [List.map_flatMap, List.nodup_flatMap]
  refine ⟨fun acc _ => (hone acc _ (hkeys _)).1, ?_⟩
  have haccs := hkeys s.accounts
  rw [List.Nodup, List.pairwise_map] at haccs
  refine haccs.imp fun {x y} hxy => ?_
  intro pair hx hy
  obtain ⟨c, hc, rfl⟩ := List.mem_map.mp hx
  obtain ⟨d, hd, heq⟩ := List.mem_map.mp hy
  have h1 := ((hone x _ (hkeys _)).2 c hc).1
  have h2 := ((hone y _ (hkeys _)).2 d hd).1
  exact hxy (by rw [← h1, ← h2, (Prod.mk.inj heq).1])

/-- What has been found among the candidates `done`, together with the cross-margin
accounts already confirmed: in isolated mode their own pairs, in cross mode one pair for
each confirmed account. -/
structure Found (s : EngineState) (done : List Candidate)
    (acc : List (AccountAddress × MarketId) × List AccountAddress) : Prop where
  nodup : acc.1.Nodup
  source : ∀ pair ∈ acc.1,
    (s.getMarginMode pair.1 = .isolated ∧
      pair ∈ done.map fun c => (c.account, c.marketId)) ∨
    (s.getMarginMode pair.1 = .cross ∧ pair.1 ∈ acc.2)

variable {s : EngineState} {done : List Candidate} {r g : Int} {l l' : Liquidations}
  {legs : List (Int × Int)}

theorem Found.skip {acc : List (AccountAddress × MarketId) × List AccountAddress}
    (h : Found s done acc) (c : Candidate) : Found s (done ++ [c]) acc := by
  refine ⟨h.nodup, fun pair hpair => (h.source pair hpair).imp_left fun ⟨h1, h2⟩ => ⟨h1, ?_⟩⟩
  rw [List.map_append]
  exact List.mem_append_left _ h2

theorem nodup_append_singleton {α : Type} {l : List α} {a : α} (hl : l.Nodup) (ha : a ∉ l) :
    (l ++ [a]).Nodup :=
  (List.perm_append_singleton a l).nodup_iff.mpr (List.nodup_cons.mpr ⟨ha, hl⟩)

variable {ord : HashOrder} {e e' : Engine} {pairs : List (AccountAddress × MarketId)}

theorem Found.confirm {acc acc' : List (AccountAddress × MarketId) × List AccountAddress}
    {c : Candidate} (h : Found s done acc)
    (hnew : (c.account, c.marketId) ∉ done.map fun c => (c.account, c.marketId))
    (hc : confirm ord s acc c = .ok acc') : Found s (done ++ [c]) acc' := by
  obtain ⟨found, confirmed⟩ := acc
  have hskip : ∀ {x : List (AccountAddress × MarketId) × List AccountAddress},
      (pure (found, confirmed) : Exec _) = .ok x → Found s (done ++ [c]) x := by
    intro x hx
    obtain rfl := pure_inv hx
    exact h.skip c
  unfold Engine.confirm at hc
  dsimp only at hc
  obtain ⟨b, -, hc⟩ := bind_inv hc
  split at hc
  · exact hskip hc
  · have hisolated : ∀ {x}, s.getMarginMode c.account = .isolated →
        (pure (found ++ [(c.account, c.marketId)], confirmed) : Exec _) = .ok x →
        Found s (done ++ [c]) x := by
      intro x hmode hx
      obtain rfl := pure_inv hx
      refine ⟨nodup_append_singleton h.nodup fun hin => ?_, fun pair hpair => ?_⟩
      · rcases h.source _ hin with ⟨-, hdone⟩ | ⟨hcross, -⟩
        · exact hnew hdone
        · rw [hmode] at hcross
          exact absurd hcross (by simp)
      · rcases List.mem_append.mp hpair with hp | hp
        · exact (h.skip c).source pair hp
        · obtain rfl := List.mem_singleton.mp hp
          exact .inl ⟨hmode, by simp⟩
    have hcross : ∀ {x worst}, s.getMarginMode c.account = .cross → c.account ∉ confirmed →
        (pure (found ++ [(c.account, worst)], confirmed ++ [c.account]) : Exec _) = .ok x →
        Found s (done ++ [c]) x := by
      intro x worst hmode hconfirmed hx
      obtain rfl := pure_inv hx
      refine ⟨nodup_append_singleton h.nodup fun hin => ?_, fun pair hpair => ?_⟩
      · rcases h.source _ hin with ⟨hiso, -⟩ | ⟨-, hmem⟩
        · rw [hmode] at hiso
          exact absurd hiso (by simp)
        · exact hconfirmed hmem
      · rcases List.mem_append.mp hpair with hp | hp
        · refine ((h.skip c).source pair hp).imp_right fun ⟨h1, h2⟩ => ⟨h1, ?_⟩
          exact List.mem_append_left _ h2
        · obtain rfl := List.mem_singleton.mp hp
          exact .inr ⟨hmode, by simp⟩
    cases hmode : s.getMarginMode c.account <;> cases hacc : s.getAccount c.account <;>
      simp only [hmode, hacc] at hc
    case isolated.none => exact hskip hc
    case isolated.some a =>
      obtain ⟨q, -, hc⟩ := bind_inv hc
      split at hc
      · exact hisolated hmode hc
      · exact hskip hc
    case cross.none =>
      split at hc <;> exact hskip hc
    case cross.some a =>
      split at hc
      · exact hskip hc
      · rename_i hconfirmed
        obtain ⟨q, -, hc⟩ := bind_inv hc
        split at hc
        · obtain ⟨worst, -, hc⟩ := bind_inv hc
          exact hcross hmode hconfirmed hc
        · exact hskip hc

/-- **No position is found twice.** -/
theorem findUnderwaterAccounts_nodup (h : findUnderwaterAccounts ord e = .ok pairs) :
    pairs.Nodup := by
  obtain ⟨⟨result, confirmed⟩, hfold, h⟩ := bind_inv h
  obtain rfl := pure_inv h
  have hall : ∀ (todo done : List Candidate) acc, Found e.state done acc →
      ((done ++ todo).map fun c => (c.account, c.marketId)).Nodup →
      todo.foldlM (Engine.confirm ord e.state) acc = .ok (result, confirmed) →
      result.Nodup := by
    intro todo
    induction todo with
    | nil =>
      intro done acc hf _ hfold
      obtain rfl := foldlM_nil_eq_ok.mp hfold
      exact hf.nodup
    | cons c todo ih =>
      intro done acc hf hnd hfold
      obtain ⟨acc₁, hc, hfold⟩ := foldlM_cons_eq_ok.mp hfold
      have hnew : (c.account, c.marketId) ∉ done.map fun c => (c.account, c.marketId) := by
        rw [List.map_append, List.map_cons] at hnd
        intro hin
        exact (List.nodup_append.mp hnd).2.2 _ hin _ (.head _) rfl
      exact ih (done ++ [c]) acc₁ (hf.confirm hnew hc) (by simpa using hnd) hfold
  exact (List.perm_insertionSort _ _).nodup_iff.mpr
    (hall _ [] ([], []) ⟨.nil, by simp⟩ (candidates_nodup ord e.state) hfold)

/-! ### One liquidation -/

/-- What liquidating a position does, computed before the pass: the residual that goes to
the insurance fund, and the gap it leaves in the total value. -/
def liquidationLeg (e : Engine) (pair : AccountAddress × MarketId) : Exec (Int × Int) :=
  match e.state.getMarket pair.2, e.state.getPosition pair.1 pair.2 with
  | some market, some p => do
    match ← e.liquidation.processLiquidation p market with
    | none => return (0, 0)
    | some (size, price) =>
      let residual ← (do
        match ← LiquidationEngine.calculateBankruptcyPrice p (e.state.getBalance pair.1) with
        | none => return 0
        | some bankruptcy => return (← residualUsdc bankruptcy size price p.isShort).value)
      let mark := market.state.markPrice
      let closed := toUsdc (p.rawPnl mark) -
        toUsdc ((p.afterFill size price p.isShort).rawPnl mark)
      return (residual, residual - closed)
  | _, _ => return (0, 0)

/-- The insurance fund covers a deficit at its turn. -/
def Covered : Int → List Int → Prop
  | _, [] => True
  | fund, r :: rs => (r < 0 → 0 ≤ fund + r) ∧ Covered (fund + r) rs

/-- One liquidation has moved the insurance fund by `r` and the total by `g`, and written
no other position. -/
structure Liquidated (e e' : Engine) (pair : AccountAddress × MarketId) (r g : Int) :
    Prop where
  accounts : e'.state.accounts = e.state.accounts
  markets : e'.state.markets = e.state.markets
  liquidation : e'.liquidation = e.liquidation
  fund : e'.state.insuranceFund = e.state.insuranceFund + r
  total : e'.state.totalValue = e.state.totalValue + g
  others : ∀ a m, (a, m) ≠ pair → e'.state.getPosition a m = e.state.getPosition a m

/-- The leg of a position only depends on what a liquidation of another one keeps. -/
theorem Liquidated.leg {pair other : AccountAddress × MarketId} (h : Liquidated e e' pair r g)
    (hne : other ≠ pair) :
    liquidationLeg e' other = liquidationLeg e other := by
  have hmarket : e'.state.getMarket other.2 = e.state.getMarket other.2 := by
    unfold getMarket
    rw [h.markets]
  have hbalance : e'.state.getBalance other.1 = e.state.getBalance other.1 := by
    unfold getBalance
    rw [h.accounts]
  unfold liquidationLeg
  rw [hmarket, h.others _ _ hne, hbalance, h.liquidation]

/-- **One liquidation.** The account keeps its balance: the total changes by the residual
less what the close takes out of unrealized PnL. -/
theorem applyLiquidation_value {a : AccountAddress} {m : MarketId} {p : Position} {market : Market}
    {size price : Decimal} (hwf : p.WF) (hp : e.state.getPosition a m = some p)
    (hm : e.state.getMarket m = some market) (hsize : size.decimals = 8) (hr : (do
        match ← LiquidationEngine.calculateBankruptcyPrice p (e.state.getBalance a) with
        | none => return 0
        | some bankruptcy => return (← residualUsdc bankruptcy size price p.isShort).value) =
      (.ok r : Exec Int)) (hcov : r < 0 → 0 ≤ e.state.insuranceFund + r)
    (h : applyLiquidation ord e a m size price = .ok e') :
    Liquidated e e' (a, m) r (r - (toUsdc (p.rawPnl market.state.markPrice) -
      toUsdc ((p.afterFill size price p.isShort).rawPnl market.state.markPrice))) := by
  unfold applyLiquidation at h
  simp only [hp] at h
  obtain ⟨b, hb, h⟩ := bind_inv h
  obtain ⟨e₁, h1, h⟩ := bind_inv h
  obtain ⟨s₂, h2, h⟩ := bind_inv h
  obtain rfl := pure_inv h
  obtain ⟨b', hb', hr⟩ := bind_inv hr
  obtain rfl : b = b' := ok_unique hb hb'
  have he₁ : e₁ = { e with state :=
      { e.state with insuranceFund := e.state.insuranceFund + r } } := by
    cases b with
    | none =>
      obtain rfl := pure_inv h1
      obtain rfl := pure_inv hr
      rw [add_zero]
    | some bankruptcy =>
      obtain ⟨v, hv, hr⟩ := bind_inv hr
      obtain rfl := pure_inv hr
      obtain ⟨v', hv', h1⟩ := settleResidual_cases h1
      obtain rfl : v = v' := ok_unique hv hv'
      rcases h1 with rfl | ⟨hneg, hfund, -⟩
      · rfl
      · have := hcov hneg
        omega
  subst he₁
  rcases modifyPosition_eq_ok h2 with ⟨hnone, -⟩ | ⟨q, p', hq, hfill, rfl⟩
  · exact absurd (hp.symm.trans hnone) (by simp)
  · obtain rfl : p = q := Option.some.inj (hp.symm.trans hq)
    obtain ⟨_, _, _, ht⟩ := cancelTriggerOrdersForPosition_only
      (s := EngineState.setPosition
        { e.state with insuranceFund := e.state.insuranceFund + r } a m p') (a := a) (m := m)
    dsimp only
    rw [ht]
    refine ⟨rfl, rfl, rfl, rfl, ?_, fun b k hne => ?_⟩
    · have hpos := unrealizedTotal_setPosition (s := e.state) (a := a) (m := m) p'
      have hworth : ∀ q : Position, e.state.worthAt m q =
          toUsdc (q.rawPnl market.state.markPrice) := by
        intro q
        unfold worthAt
        rw [hm]
        rfl
      rw [hp, Option.map_some, Option.getD_some, hworth, hworth,
        applyFill_worth hwf hsize hfill] at hpos
      show e.state.balanceTotal + (e.state.setPosition a m p').unrealizedTotal +
        (e.state.insuranceFund + r) = _
      rw [hpos]
      unfold totalValue
      omega
    · show (e.state.setPosition a m p').getPosition b k = _
      rw [getPosition_setPosition, if_neg]
      rintro ⟨rfl, rfl⟩
      exact hne rfl

theorem liquidate_value {pair : AccountAddress × MarketId} (hwf : PositionsWF e.state)
    (hleg : liquidationLeg e pair = .ok (r, g)) (hcov : r < 0 → 0 ≤ e.state.insuranceFund + r)
    (h : liquidate ord (l, e) pair = .ok (l', e')) :
    Liquidated e e' pair r g := by
  have hnothing : ∀ {x : Liquidations × Engine}, x = (l', e') → x.2 = e → (0, 0) = (r, g) →
      Liquidated e e' pair r g := by
    rintro _ rfl rfl hrg
    obtain ⟨rfl, rfl⟩ := Prod.mk.inj hrg
    exact ⟨rfl, rfl, rfl, (add_zero _).symm, (add_zero _).symm, fun _ _ _ => rfl⟩
  unfold liquidate at h
  unfold liquidationLeg at hleg
  dsimp only at h
  split at h
  · rename_i market p hm hp
    simp only [hm, hp] at hleg
    obtain ⟨res, hres, h⟩ := bind_inv h
    obtain ⟨res', hres', hleg⟩ := bind_inv hleg
    obtain rfl : res = res' := ok_unique hres hres'
    cases res with
    | none => exact hnothing (pure_inv h) rfl (pure_inv hleg)
    | some q =>
      obtain ⟨size, price⟩ := q
      obtain ⟨v, hv, hleg⟩ := bind_inv hleg
      obtain ⟨rfl, rfl⟩ := pair_inv hleg
      obtain ⟨e₁, h1, h⟩ := bind_inv h
      obtain ⟨-, rfl⟩ := pair_inv h
      refine applyLiquidation_value (hwf _ _ _ hp) hp hm ?_ hv hcov h1
      unfold LiquidationEngine.processLiquidation at hres
      split at hres
      · exact absurd (pure_inv hres) (by simp)
      · obtain ⟨sz, hsz, hres⟩ := bind_inv hres
        obtain ⟨pr, -, hres⟩ := bind_inv hres
        obtain ⟨rfl, -⟩ := Prod.mk.inj (Option.some.inj (pure_inv hres))
        exact calculateLiquidationSize_decimals (hwf _ _ _ hp) hsz
  · rename_i hnone
    refine hnothing (pure_inv h) rfl (pure_inv ?_)
    split at hleg
    · rename_i market p hm hp
      exact absurd hp (hnone market p hm)
    · exact hleg

/-- **A pass.** The total moves by the sum of the gaps. -/
theorem liquidations_total (hnd : pairs.Nodup) (hwf : PositionsWF e.state)
    (hlegs : pairs.mapM (liquidationLeg e) = .ok legs)
    (hcov : Covered e.state.insuranceFund (legs.map (·.1)))
    (h : pairs.foldlM (liquidate ord) (l, e) = .ok (l', e')) :
    e'.state.totalValue = e.state.totalValue + (legs.map (·.2)).sum := by
  induction pairs generalizing e l legs with
  | nil =>
    obtain ⟨-, rfl⟩ := Prod.mk.inj (foldlM_nil_eq_ok.mp h)
    obtain rfl := pure_inv hlegs
    simp
  | cons pair pairs ih =>
    obtain ⟨⟨r, g⟩, hleg, legs, hrest, rfl⟩ := mapM_cons_eq_ok.mp hlegs
    obtain ⟨⟨l₁, e₁⟩, h1, h⟩ := foldlM_cons_eq_ok.mp h
    obtain ⟨hpair, hnd⟩ := List.nodup_cons.mp hnd
    have hdone := liquidate_value hwf hleg hcov.1 h1
    have hsame : pairs.mapM (liquidationLeg e₁) = pairs.mapM (liquidationLeg e) :=
      mapM_congr fun other hother => hdone.leg fun heq => hpair (heq ▸ hother)
    have hcov' : Covered e₁.state.insuranceFund (legs.map (·.1)) := by
      rw [hdone.fund]
      exact hcov.2
    rw [ih hnd ((liquidate_posWrites hwf h1).wf hwf) (hsame.trans hrest) hcov' h, hdone.total,
      List.map_cons, List.sum_cons, add_assoc]

/-- **Liquidation and total value.** In a pass whose deficits the insurance fund covers,
the total stays within a rounding error of `k` micro-USDC for each position exactly when
the gaps do: residuals that balance what the closes take out of unrealized PnL. -/
theorem liquidation_conserves_iff {ord : HashOrder} {e e' : Engine} {l : Liquidations}
    {pairs : List (AccountAddress × MarketId)} {legs : List (Int × Int)} (hr : Reachable e)
    (hpairs : findUnderwaterAccounts ord e = .ok pairs)
    (hlegs : pairs.mapM (liquidationLeg e) = .ok legs)
    (hcov : Covered e.state.insuranceFund (legs.map (·.1)))
    (h : e.processLiquidations ord = .ok (l, e')) (k : Nat) :
    |e'.state.totalValue - e.state.totalValue| ≤ k * pairs.length ↔
      |(legs.map (·.2)).sum| ≤ k * pairs.length := by
  obtain ⟨pairs', hpairs', h⟩ := bind_inv h
  obtain rfl : pairs = pairs' := ok_unique hpairs hpairs'
  rw [liquidations_total (findUnderwaterAccounts_nodup hpairs) hr.positionsWF hlegs hcov h,
    add_sub_cancel_left]

/-- A run, the positions a liquidation pass finds after it, their legs, and the pass. -/
def liquidationRun (ops : List Op) : Exec (Engine × List (AccountAddress × MarketId) ×
    List (Int × Int) × Liquidations × Engine) := do
  let e ← btcRun none ops
  let pairs ← findUnderwaterAccounts .sorted e
  let legs ← pairs.mapM (liquidationLeg e)
  let (l, e') ← e.processLiquidations .sorted
  return (e, pairs, legs, l, e')

theorem liquidationRun_eq_ok {ops : List Op}
    (h : liquidationRun ops = .ok (e, pairs, legs, l, e')) :
    Reachable e ∧ findUnderwaterAccounts .sorted e = .ok pairs ∧
      pairs.mapM (liquidationLeg e) = .ok legs ∧ e.processLiquidations .sorted = .ok (l, e') := by
  obtain ⟨e₁, h1, h⟩ := bind_inv h
  obtain ⟨pairs₁, h2, h⟩ := bind_inv h
  obtain ⟨legs₁, h3, h⟩ := bind_inv h
  obtain ⟨⟨l₁, e₂⟩, h4, h⟩ := bind_inv h
  obtain ⟨rfl, rfl, rfl, rfl, rfl⟩ := by simpa using pure_inv h
  exact ⟨btcRun_reachable h1, h2, h3, h4⟩

/-- An account whose balance is the liquidation spread of its position: a quarter of the
position is closed at the mark price it was opened at, with no residual. -/
theorem liquidation_conserves_at_spread : ∃ (e e' : Engine) (size : Decimal), Reachable e ∧
    e.processLiquidations .sorted = .ok ([(1, 0, size)], e') ∧ size.value = 2500000 ∧
    |e'.state.totalValue - e.state.totalValue| ≤ 1 * 1 := by
  obtain ⟨⟨e, pairs, legs, l, e'⟩, hrun, htest⟩ := exists_of_test
    (x := liquidationRun [.deposit 1 660000000, .deposit 2 1000000000000,
      .placeOrder 2 (limitOrder .sell .gtc 6500000000000 10000000) 5,
      .placeOrder 1 (limitOrder .buy .gtc 6500000000000 10000000) 6,
      .withdraw 1 624250000])
    (p := fun x => decide (x.2.1 = [(1, 0)] ∧ x.2.2.1 = [(0, 0)] ∧
      x.2.2.2.1 = [(1, 0, ⟨2500000, 8⟩)])) (by decide +kernel)
  obtain ⟨rfl, rfl, rfl⟩ := of_decide_eq_true htest
  obtain ⟨hreach, hpairs, hlegs, hpass⟩ := liquidationRun_eq_ok hrun
  have hcov : Covered e.state.insuranceFund ([(0, 0)].map (·.1)) :=
    ⟨fun h => absurd h (by decide), trivial⟩
  exact ⟨e, e', _, hreach, hpass, rfl,
    (liquidation_conserves_iff hreach hpairs hlegs hcov hpass 1).mpr (by decide)⟩

/-- An account liquidated at a loss keeps its balance: closing a quarter of its position
takes 162.5 USDC of loss out of the books, and its balance funds a surplus of 4.4 USDC. -/
theorem liquidation_creates_value : ∃ (e e' : Engine) (l : Liquidations), Reachable e ∧
    e.processLiquidations .sorted = .ok (l, e') ∧ l.length = 1 ∧
    e'.state.totalValue - e.state.totalValue = 166874987 := by
  obtain ⟨⟨e, pairs, legs, l, e'⟩, hrun, htest⟩ := exists_of_test
    (x := liquidationRun [.deposit 1 700000000, .deposit 2 1000000000000,
      .deposit 3 1000000000000,
      .placeOrder 2 (limitOrder .sell .gtc 6500000000000 10000000) 5,
      .placeOrder 1 (limitOrder .buy .gtc 6500000000000 10000000) 6,
      .placeOrder 2 (limitOrder .sell .gtc 100000000 100000) 7,
      .placeOrder 3 (limitOrder .buy .gtc 100000000 100000) 8])
    (p := fun x => decide (x.2.2.2.1.length = 1 ∧
      x.2.2.2.2.state.totalValue - x.1.state.totalValue = 166874987)) (by decide +kernel)
  obtain ⟨hl, hdiff⟩ := of_decide_eq_true htest
  obtain ⟨hreach, -, -, hpass⟩ := liquidationRun_eq_ok hrun
  exact ⟨e, e', l, hreach, hpass, hl, hdiff⟩

end Engine

end Hypercore
