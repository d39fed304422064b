import Hypercore.Engine.Positions
/-!
# Hypercore.Engine.Equity

What a fill does to the equity of its parties.

A fill takes the PnL it realizes out of the unrealized PnL of a position
(`applyFill_rawPnl`), writes it into the position's `realizedPnl`, and moves nothing
but the fee in the account's balance. Equity, which is balance and unrealized PnL,
therefore changes by the fee and by the realized PnL.
-/

namespace Hypercore

open Exec Int128 Position

/-- The two parties of a fill. -/
inductive Role
  | maker
  | taker
  deriving DecidableEq, Repr

namespace Role

variable (fill : Fill)

def party : Role → AccountAddress
  | maker => fill.maker
  | taker => fill.taker

def fee : Role → Int
  | maker => fill.makerFee
  | taker => ofU128 fill.takerFee

def isBuy : Role → Bool
  | maker => !fill.isTakerBuy
  | taker => fill.isTakerBuy

end Role

namespace Engine

open EngineState

/-- A market as it stands, with another mark price. -/
def markedAt (market : Market) (price : Decimal) : Market :=
  { market with state := { market.state with markPrice := price } }

/-- Equity of an account with its position in a fill's market valued at the fill price;
`none` without the account. -/
def equityAt (s : EngineState) (market : Market) (fill : Fill) (a : AccountAddress) :
    Exec (Option Decimal) :=
  match s.getAccount a with
  | none => return none
  | some acc => do
    let equity ← RiskEngine.calculateEquity acc
      ((s.getPosition a fill.marketId).toList.map (·, markedAt market (fillPrice fill)))
    return some equity

/-- Unrealized PnL in micro-USDC, zero without a position. -/
def worth (p : Option Position) (price : Decimal) : Int :=
  (p.map fun p => toUsdc (p.rawPnl price)).getD 0

/-- What a fill takes out of the unrealized PnL of one party's position, both valued at
the fill price. -/
def settledPnl (s : EngineState) (fill : Fill) (r : Role) : Int :=
  let before := s.getPosition (r.party fill) fill.marketId
  let after := before.map fun p => p.afterFill (fillSize fill) (fillPrice fill) (r.isBuy fill)
  worth before (fillPrice fill) - worth after (fillPrice fill)

variable {s s' : EngineState} {a : AccountAddress} {e e' : Engine}

/-- Equity is the balance and what the position is worth. -/
theorem equityAt_value {market : Market} {fill : Fill} {E : Decimal} (hwf : PositionsWF s)
    (h : equityAt s market fill a = .ok (some E)) :
    ∃ acc, s.getAccount a = some acc ∧
      E.value = acc.balance + worth (s.getPosition a fill.marketId) (fillPrice fill) := by
  unfold equityAt at h
  split at h
  · exact absurd (pure_inv h) (by simp)
  · rename_i acc hacc
    obtain ⟨E₁, hE, h⟩ := bind_inv h
    obtain rfl := Option.some.inj (pure_inv h)
    refine ⟨acc, hacc, ?_⟩
    obtain ⟨total, htotal, hE⟩ := bind_inv hE
    rw [(Decimal.add_eq_ok.mp hE).2]
    unfold worth
    cases hp : s.getPosition a fill.marketId with
    | none =>
      rw [hp] at htotal
      obtain rfl := foldlM_nil_eq_ok.mp htotal
      rfl
    | some p =>
      rw [hp] at htotal
      obtain ⟨t, ht, htotal⟩ := foldlM_cons_eq_ok.mp htotal
      obtain rfl := foldlM_nil_eq_ok.mp htotal
      obtain ⟨v, hv, ht⟩ := bind_inv ht
      obtain ⟨u, hu, ht⟩ := bind_inv ht
      rw [(Decimal.add_eq_ok.mp ht).2, unrealizedPnl_usdc (hwf _ _ _ hp) hv hu]
      simp [markedAt]

/-! ### One fill -/

theorem fillRecord_positions (s : EngineState) (fill : Fill) :
    (fillRecord s fill).positions = s.positions ∧ (fillRecord s fill).accounts = s.accounts := by
  obtain ⟨_, _, _, _, _, h⟩ := fillRecord_writes s fill
  rw [h]
  exact ⟨rfl, rfl⟩

/-- A write through `get_position_mut`, at another account. -/
theorem modifyPosition_other {b : AccountAddress} {m k : MarketId} {f : Position → Exec Position}
    (hab : a ≠ b) (h : s.modifyPosition a m f = .ok s') :
    s'.getPosition b k = s.getPosition b k := by
  rcases modifyPosition_eq_ok h with ⟨-, rfl⟩ | ⟨p, p', -, -, rfl⟩
  · rfl
  · rw [getPosition_setPosition, if_neg (fun hc => hab hc.1)]

theorem modifyAccount_other {b : AccountAddress} {f : AccountState → Exec AccountState}
    (hab : a ≠ b) (h : s.modifyAccount a f = .ok s') :
    s'.getAccount b = s.getAccount b := by
  rcases modifyAccount_eq_ok h with ⟨-, rfl⟩ | ⟨acc, acc', -, -, rfl⟩
  · rfl
  · simp only [getAccount, FinMap.get_insert, if_neg hab]

/-- The position of a party after its own leg of a fill. -/
theorem applyFill_leg {m : MarketId} {f price : Decimal} {isBuy : Bool} (hwf : PositionsWF s)
    (hf : f.decimals = 8) (h : s.modifyPosition a m (fun p => p.applyFill f price isBuy) = .ok s')
    (mark : Decimal) :
    worth (s'.getPosition a m) mark =
      worth ((s.getPosition a m).map fun p => p.afterFill f price isBuy) mark := by
  rcases modifyPosition_eq_ok h with ⟨hnone, rfl⟩ | ⟨p, p', hp, hfill, rfl⟩
  · rw [hnone]
    rfl
  · rw [getPosition_setPosition, if_pos ⟨rfl, rfl⟩, hp]
    unfold worth
    simp only [Option.map_some, Option.getD_some, applyFill_worth (hwf _ _ _ hp) hf hfill]

theorem subBalance_value {fee : Int} {acc acc' : AccountState} (hacc : s.getAccount a = some acc)
    (hacc' : s'.getAccount a = some acc') (h : subBalance s a fee = .ok s') :
    acc'.balance = acc.balance - fee := by
  rcases modifyAccount_eq_ok h with ⟨hnone, -⟩ | ⟨acc₁, acc₂, hacc₁, hf, rfl⟩
  · rw [hacc] at hnone
    exact absurd hnone (by simp)
  · obtain rfl := Option.some.inj (hacc.symm.trans hacc₁)
    simp only [getAccount, FinMap.get_insert, if_pos, Option.some.injEq] at hacc'
    obtain ⟨b, hb, hf⟩ := bind_inv hf
    obtain rfl := pure_inv hf
    rw [← hacc']
    exact (i128_eq_ok.mp hb).2.symm

theorem getPosition_congr (h : s'.positions = s.positions) (a : AccountAddress) (m : MarketId) :
    s'.getPosition a m = s.getPosition a m := by
  unfold getPosition
  rw [h]

/-- The two legs of a fill, and the positions it leaves. -/
theorem applyFill_legs {fill : Fill} (h : e.applyFill fill = .ok e') :
    ∃ s₁ s₂,
      e.state.modifyPosition fill.maker fill.marketId (fun p =>
        p.applyFill (fillSize fill) (fillPrice fill) (!fill.isTakerBuy)) = .ok s₁ ∧
      s₁.modifyPosition fill.taker fill.marketId (fun p =>
        p.applyFill (fillSize fill) (fillPrice fill) fill.isTakerBuy) = .ok s₂ ∧
      e'.state.positions = s₂.positions := by
  obtain ⟨t₁, t₂, t₃, t₄, u, h1, h2, h3, h4, rfl⟩ := applyFill_steps h
  obtain ⟨s₁, s₂, _, _, g1, g2, h1⟩ := fillPositions_steps h1
  obtain ⟨_, ht₁⟩ := modifyMarket_only h1
  obtain ⟨_, ht₂⟩ := modifyAccount_only h2
  obtain ⟨_, ht₃⟩ := modifyAccount_only h3
  obtain ⟨_, ht₄⟩ := fillMarket_only h4
  refine ⟨s₁, s₂, g1, g2, ?_⟩
  dsimp only
  rw [(fillRecord_positions t₄ fill).1, ht₄, ht₃, ht₂, ht₁]

theorem fillPositions_accounts {fill : Fill} (h : fillPositions s fill = .ok s')
    (a : AccountAddress) :
    s'.getAccount a = s.getAccount a := by
  obtain ⟨s₁, s₂, _, _, h1, h2, h⟩ := fillPositions_steps h
  obtain ⟨_, rfl⟩ := modifyPosition_only h1
  obtain ⟨_, rfl⟩ := modifyPosition_only h2
  obtain ⟨_, rfl⟩ := modifyMarket_only h
  rfl

/-- **One fill.** Each party pays its fee out of its balance, and its position is worth
what the fill leaves of it. -/
theorem applyFill_party {fill : Fill} (hwf : PositionsWF e.state)
    (hparties : fill.maker ≠ fill.taker) (h : e.applyFill fill = .ok e') (r : Role)
    {acc acc' : AccountState} (hacc : e.state.getAccount (r.party fill) = some acc)
    (hacc' : e'.state.getAccount (r.party fill) = some acc') :
    acc'.balance = acc.balance - r.fee fill ∧
      worth (e'.state.getPosition (r.party fill) fill.marketId) (fillPrice fill) =
        worth (e.state.getPosition (r.party fill) fill.marketId) (fillPrice fill) -
          settledPnl e.state fill r := by
  obtain ⟨t₁, t₂, g1, g2, hsame⟩ := applyFill_legs h
  have hpos := getPosition_congr hsame
  obtain ⟨s₁, s₂, s₃, s₄, u, h1, h2, h3, h4, rfl⟩ := applyFill_steps h
  have hwf₁ : PositionsWF t₁ := (PosWrites.of_fill rfl g1).wf hwf
  have hs₁acc := fillPositions_accounts h1
  have hs₄acc : ∀ a, (fillRecord s₄ fill).getAccount a = s₃.getAccount a := by
    intro a
    obtain ⟨_, hs₄⟩ := fillMarket_only h4
    unfold getAccount
    rw [(fillRecord_positions s₄ fill).2, hs₄]
  simp only [hs₄acc] at hacc'
  rw [hpos]
  unfold settledPnl
  cases r with
  | maker =>
    have h23 := modifyAccount_other (Ne.symm hparties) h3
    refine ⟨subBalance_value (by rw [hs₁acc]; exact hacc)
      (by rw [← h23]; exact hacc') h2, ?_⟩
    dsimp only [Role.party]
    rw [modifyPosition_other (Ne.symm hparties) g2, applyFill_leg hwf rfl g1]
    simp only [Role.isBuy]
    omega
  | taker =>
    have h12 := modifyAccount_other hparties h2
    refine ⟨subBalance_value ((h12.trans (hs₁acc _)).trans hacc) hacc' h3, ?_⟩
    dsimp only [Role.party]
    rw [applyFill_leg hwf₁ rfl g2, modifyPosition_other hparties g1]
    simp only [Role.isBuy]
    omega

/-- A party's position takes the fill. -/
theorem applyFill_fills {fill : Fill} (hparties : fill.maker ≠ fill.taker)
    (h : e.applyFill fill = .ok e') (r : Role) {p : Position}
    (hp : e.state.getPosition (r.party fill) fill.marketId = some p) :
    ∃ p', p.applyFill (fillSize fill) (fillPrice fill) (r.isBuy fill) = .ok p' := by
  obtain ⟨s₁, h1, -⟩ := bind_inv h
  obtain ⟨t₁, g1, h1⟩ := bind_inv h1
  obtain ⟨t₂, g2, -⟩ := bind_inv h1
  have hleg : ∀ {s t : EngineState} {a : AccountAddress} {isBuy : Bool},
      s.getPosition a fill.marketId = some p →
      s.modifyPosition a fill.marketId
        (fun p => p.applyFill (fillSize fill) (fillPrice fill) isBuy) = .ok t →
      ∃ p', p.applyFill (fillSize fill) (fillPrice fill) isBuy = .ok p' := by
    intro s t a isBuy hp ht
    rcases modifyPosition_eq_ok ht with ⟨hnone, -⟩ | ⟨q, p', hq, hfill, -⟩
    · rw [hp] at hnone
      exact absurd hnone (by simp)
    · obtain rfl := Option.some.inj (hp.symm.trans hq)
      exact ⟨p', hfill⟩
  cases r with
  | maker => exact hleg hp g1
  | taker => exact hleg ((modifyPosition_other hparties g1).trans hp) g2

/-- What leaves the position is the PnL that the fill is recorded with, up to rounding. -/
theorem settledPnl_near {fill : Fill} {r : Role} {p p' : Position} {v : Decimal} (hwf : p.WF)
    (hsize : fill.size < 2 ^ 127) (hp : s.getPosition (r.party fill) fill.marketId = some p)
    (hfill : p.applyFill (fillSize fill) (fillPrice fill) (r.isBuy fill) = .ok p')
    (hv : p.calculateFillPnl (fillSize fill) (fillPrice fill) (r.isBuy fill) = .ok v) :
    |settledPnl s fill r - v.value| ≤ 1 := by
  have hpos : 0 ≤ (fillSize fill).value := by
    simp only [fillSize, ofU128, if_pos hsize]
    omega
  have hnear := toUsdc_near (applyFill_rawPnl hwf rfl hpos hfill)
  rw [applyFill_worth hwf rfl hfill] at hnear
  rw [calculateFillPnl_usdc hwf rfl hv]
  unfold settledPnl worth
  rw [hp]
  simp only [Option.map_some, Option.getD_some]
  rw [abs_le] at hnear ⊢
  omega

/-- **Equity across a fill.** The equity of a party changes by no more than its fee and
one micro-USDC exactly when its position gives up at most that: a gain of at most one
micro-USDC (more with a rebate), a loss of at most twice the fee. What the position gives
up is the realized PnL that the engine computes for the fill, up to rounding. -/
theorem equity_kept_iff {e e' : Engine} {fill : Fill} {E E' : Decimal} (hr : Reachable e)
    (hparties : fill.maker ≠ fill.taker) (h : e.applyFill fill = .ok e') (market : Market)
    (r : Role) (hE : equityAt e.state market fill (r.party fill) = .ok (some E))
    (hE' : equityAt e'.state market fill (r.party fill) = .ok (some E')) :
    (|E'.value - E.value| ≤ |r.fee fill| + 1 ↔
      -(2 * max (r.fee fill) 0 + 1) ≤ settledPnl e.state fill r ∧
        settledPnl e.state fill r ≤ 2 * max (-r.fee fill) 0 + 1) ∧
    (fill.size < 2 ^ 127 → ∀ p v, e.state.getPosition (r.party fill) fill.marketId = some p →
      p.calculateFillPnl (fillSize fill) (fillPrice fill) (r.isBuy fill) = .ok v →
      |settledPnl e.state fill r - v.value| ≤ 1) := by
  have hwf := hr.positionsWF
  have hwf' : PositionsWF e'.state := (applyFill_posWrites h).wf hwf
  obtain ⟨acc, hacc, hE⟩ := equityAt_value hwf hE
  obtain ⟨acc', hacc', hE'⟩ := equityAt_value hwf' hE'
  obtain ⟨hbal, hworth⟩ := applyFill_party hwf hparties h r hacc hacc'
  have hchange : E'.value - E.value = -(r.fee fill) - settledPnl e.state fill r := by
    rw [hE, hE', hbal, hworth]
    omega
  refine ⟨?_, fun hsize p v hp hv => ?_⟩
  · rw [hchange, abs_le]
    rcases le_total 0 (r.fee fill) with hfee | hfee
    · rw [abs_of_nonneg hfee, max_eq_left hfee, max_eq_right (by omega)]
      omega
    · rw [abs_of_nonpos hfee, max_eq_right hfee, max_eq_left (by omega)]
      omega
  · obtain ⟨p', hfill⟩ := applyFill_fills hparties h r hp
    exact settledPnl_near (hwf _ _ _ hp) hsize hp hfill hv

/-- A fill that an order of one account gets, what applying it gives, and the equity of
the account on both sides of it. -/
def fillRun (ops : List Op) (a : AccountAddress) (request : OrderRequest) :
    Exec (Engine × Fill × Engine × Option Decimal × Option Decimal × Market) := do
  let e ← btcRun none ops
  match ← e.submitOrder a request 9 with
  | (.ok (_, [fill]), _) =>
    let e' ← e.applyFill fill
    match e.state.getMarket 0 with
    | none => .error .panic
    | some market =>
      let E ← equityAt e.state market fill a
      let E' ← equityAt e'.state market fill a
      return (e, fill, e', E, E', market)
  | _ => .error .panic

/-- The steps of `fillRun`. -/
theorem fillRun_eq_ok {ops : List Op} {q : OrderRequest} {fill : Fill} {E E' : Option Decimal}
    {market : Market} (h : fillRun ops a q = .ok (e, fill, e', E, E', market)) :
    Reachable e ∧ (∃ order e₂, e.submitOrder a q 9 = .ok (.ok (order, [fill]), e₂)) ∧
      e.applyFill fill = .ok e' ∧ equityAt e.state market fill a = .ok E ∧
      equityAt e'.state market fill a = .ok E' := by
  obtain ⟨e₁, h1, h⟩ := bind_inv h
  obtain ⟨res, h2, h⟩ := bind_inv h
  split at h
  · rename_i order fill₁ e₂ h2
    obtain ⟨e₃, h3, h⟩ := bind_inv h
    split at h
    · exact absurd h (by simp)
    · obtain ⟨E₁, h4, h⟩ := bind_inv h
      obtain ⟨E₂, h5, h⟩ := bind_inv h
      obtain ⟨rfl, rfl, rfl, rfl, rfl, rfl⟩ := by simpa using pure_inv h
      exact ⟨btcRun_reachable h1, ⟨_, _, h2⟩, h3, h4, h5⟩
  · exact absurd h (by simp)

/-- A fill that opens the position of its taker. -/
theorem equity_kept_opening : ∃ (e e' : Engine) (fill : Fill) (market : Market)
    (E E' : Decimal), Reachable e ∧ e.applyFill fill = .ok e' ∧
    equityAt e.state market fill fill.taker = .ok (some E) ∧
    equityAt e'.state market fill fill.taker = .ok (some E') ∧
    fill.takerFee = 3250000 ∧ |E'.value - E.value| ≤ 3250001 := by
  obtain ⟨⟨e, fill, e', E, E', market⟩, hrun, htest⟩ := exists_of_test
    (x := fillRun [.deposit 1 1000000000000, .deposit 2 1000000000000,
      .placeOrder 2 (limitOrder .sell .gtc 6500000000000 10000000) 5] 1
      (limitOrder .buy .gtc 6500000000000 10000000))
    (p := fun x => decide (x.2.1.taker = 1 ∧ x.2.1.maker = 2 ∧ x.2.1.takerFee = 3250000 ∧
      x.2.2.2.1.isSome ∧ x.2.2.2.2.1.isSome ∧ settledPnl x.1.state x.2.1 .taker = 0))
    (by decide +kernel)
  obtain ⟨htaker, hmaker, hfee, hE, hE', hpnl⟩ := of_decide_eq_true htest
  obtain ⟨E, rfl⟩ := Option.isSome_iff_exists.mp hE
  obtain ⟨E', rfl⟩ := Option.isSome_iff_exists.mp hE'
  obtain ⟨hreach, -, happly, h1, h2⟩ := fillRun_eq_ok hrun
  rw [← htaker] at h1 h2
  have hiff := (equity_kept_iff hreach (by rw [htaker, hmaker]; decide) happly market .taker
    h1 h2).1
  have hfee' : Role.taker.fee fill = 3250000 := by
    show ofU128 fill.takerFee = 3250000
    rw [hfee]
    decide
  refine ⟨e, e', fill, market, E, E', hreach, happly, h1, h2, hfee, ?_⟩
  rw [hfee', hpnl] at hiff
  exact hiff.mpr (by decide)

/-- A fill that closes a long position at a gain of 500 USDC: the gain leaves the
account's equity, with the fee of 3.5 USDC. -/
theorem equity_lost_closing : ∃ (e e' e₂ : Engine) (order : Order) (fill : Fill)
    (market : Market) (E E' : Decimal), Reachable e ∧
    e.submitOrder 1 (limitOrder .sell .gtc 7000000000000 10000000) 9 =
      .ok (.ok (order, [fill]), e₂) ∧
    e.applyFill fill = .ok e' ∧
    equityAt e.state market fill fill.taker = .ok (some E) ∧
    equityAt e'.state market fill fill.taker = .ok (some E') ∧
    fill.takerFee = 3500000 ∧ fill.realizedPnlTaker = 500000000 ∧
    E'.value - E.value = -503500000 := by
  obtain ⟨⟨e, fill, e', E, E', market⟩, hrun, htest⟩ := exists_of_test
    (x := fillRun [.deposit 1 1000000000000, .deposit 2 1000000000000,
      .placeOrder 2 (limitOrder .sell .gtc 6500000000000 10000000) 5,
      .placeOrder 1 (limitOrder .buy .gtc 6500000000000 10000000) 6,
      .placeOrder 2 (limitOrder .buy .gtc 7000000000000 10000000) 7] 1
      (limitOrder .sell .gtc 7000000000000 10000000))
    (p := fun x => decide (x.2.1.taker = 1 ∧ x.2.1.takerFee = 3500000 ∧
      x.2.1.realizedPnlTaker = 500000000 ∧ x.2.2.2.1.isSome ∧ x.2.2.2.2.1.isSome ∧
      (x.2.2.2.2.1.getD .default).value - (x.2.2.2.1.getD .default).value = -503500000))
    (by decide +kernel)
  obtain ⟨htaker, hfee, hreal, hE, hE', hdiff⟩ := of_decide_eq_true htest
  obtain ⟨E, rfl⟩ := Option.isSome_iff_exists.mp hE
  obtain ⟨E', rfl⟩ := Option.isSome_iff_exists.mp hE'
  obtain ⟨hreach, ⟨order, e₂, hsubmit⟩, happly, h1, h2⟩ := fillRun_eq_ok hrun
  rw [← htaker] at h1 h2
  exact ⟨e, e', e₂, order, fill, market, E, E', hreach, hsubmit, happly, h1, h2, hfee, hreal,
    hdiff⟩

end Engine

end Hypercore
