import Hypercore.Engine.Balances
import Hypercore.Engine.OpenInterestRun
import Mathlib.Algebra.BigOperators.Ring.List
/-!
# Hypercore.Engine.FundingValue

What a funding call does to the USDC of all accounts.

A settlement is a payment and the part of it that is refused: a payer whose core view does
not cover its payment keeps it, while receivers are credited all the same. The supply of
USDC therefore moves by the refused payments less all payments (`processFunding_supply`).
Where sizes cancel and all positions of a market have one funding index the payments are
truncated shares of zero, so they sum to at most one micro-USDC for each settlement
(`payments_cancel`), and what is left is what was refused.
-/

namespace Hypercore

open Exec Int128

namespace Engine

open EngineState

/-! ### Settlements -/

/-- One settlement, in raw USDC. -/
structure Settlement where
  /-- What the account owes; negative if it receives. -/
  payment : Int
  /-- What it owes and is not debited for. -/
  refused : Int
  deriving DecidableEq, Repr

/-- The settlement of an account, from the state before it. -/
def settlementOf (m : MarketId) (acc : Decimal) (e : Engine) (a : AccountAddress) :
    Exec Settlement :=
  match e.unifiedState, e.state.getPosition a m with
  | some u, some p =>
    if p.isEmpty then return ⟨0, 0⟩
    else do
      let (payment, _) ← p.settleFunding acc
      return ⟨payment.value,
        if 0 < payment.value ∧ ¬ u.Covers a 0 payment then payment.value else 0⟩
  | _, _ => return ⟨0, 0⟩

/-- The settlements of one market, each from the state its predecessors leave. -/
def holdersTrace (t : Timestamp) (e : Engine) (mr : MarketId × Decimal) :
    Exec (List Settlement) :=
  match e.state.getMarket mr.1 with
  | none => return []
  | some market => foldTrace (settleAccount mr.1 mr.2 market.state.fundingAccumulator t)
      (settlementOf mr.1 market.state.fundingAccumulator) (holders e.state mr.1) e

/-- The settlements of a funding call, market by market. -/
def fundingTrace (t : Timestamp) (e : Engine) : Exec (List (List Settlement)) := do
  let (rates, e) ← e.state.getMarketIds.foldlM (settleMarket t) ([], e)
  foldTrace (settleHolders t) (holdersTrace t) rates e

/-- USDC of all accounts in the shared balances. -/
def usdcSupply (e : Engine) : Int := (e.unifiedState.map (·.supply 0)).getD 0

def Shared (e : Engine) : Prop := e.unifiedState.isSome = true

section Settle

variable {e e' : Engine} {m : MarketId} {rate acc : Decimal} {t : Timestamp} {a : AccountAddress}

theorem settlementOf_exists (h : settleAccount m rate acc t e a = .ok e') :
    ∃ x, settlementOf m acc e a = .ok x := by
  unfold settlementOf
  split
  · rename_i u p hu hp
    rcases settleAccount_cases h with ⟨-, hempty⟩ | ⟨p', payment, q, hp', hopen, hsettle, -⟩
    · rw [if_pos (hempty p hp)]
      exact ⟨_, rfl⟩
    · obtain rfl := Option.some.inj (hp.symm.trans hp')
      rw [if_neg (by simp [hopen]), hsettle]
      exact ⟨_, rfl⟩
  · exact ⟨_, rfl⟩

/-- **One settlement.** The supply falls by the payment and rises by what is refused. -/
theorem settleAccount_supply {x : Settlement} (hshared : e.Shared)
    (h : settleAccount m rate acc t e a = .ok e') (hx : settlementOf m acc e a = .ok x) :
    e'.Shared ∧ e'.usdcSupply = e.usdcSupply + (x.refused - x.payment) := by
  obtain ⟨u, hu⟩ := Option.isSome_iff_exists.mp hshared
  unfold settlementOf at hx
  simp only [hu] at hx
  rcases settleAccount_cases h with ⟨rfl, hempty⟩ |
    ⟨p, payment, p', hp, hopen, hsettle, -, -, hside⟩
  · refine ⟨hshared, ?_⟩
    have hzero : x = ⟨0, 0⟩ := by
      cases hp : e'.state.getPosition a m with
      | none =>
        rw [hp] at hx
        exact (pure_inv hx).symm
      | some p =>
        rw [hp] at hx
        dsimp only at hx
        rw [if_pos (hempty p hp)] at hx
        exact (pure_inv hx).symm
    rw [hzero]
    simp
  · simp only [hp, hopen, Bool.false_eq_true, if_false, hsettle] at hx
    obtain rfl := pure_inv hx
    rcases hside with ⟨hzero, hsame⟩ | ⟨paymentAbs, hne, habs, hun⟩
    · unfold Shared usdcSupply
      rw [hsame]
      refine ⟨hshared, ?_⟩
      simp [hzero]
    · rw [hu] at hun
      obtain ⟨u', hmove, hu'⟩ := bind_inv hun
      have hu'' : e'.unifiedState = some u' := (pure_inv hu').symm
      unfold Shared usdcSupply
      rw [hu'', hu]
      refine ⟨rfl, ?_⟩
      simp only [Option.map_some, Option.getD_some]
      obtain ⟨-, rfl⟩ := Decimal.abs_eq_ok.mp habs
      unfold payUnified at hmove
      split at hmove
      · rename_i hpos
        rw [Decimal.isPositive_iff] at hpos
        obtain ⟨⟨r, u₁⟩, hdebit, hmove⟩ := bind_inv hmove
        obtain rfl := pure_inv hmove
        have hpay : (⟨|payment.value|, payment.decimals⟩ : Decimal) = payment := by
          rw [abs_of_pos hpos]
        rw [hpay] at hdebit
        rw [UnifiedState.debitCore_supply hdebit, if_pos rfl]
        by_cases hcov : u.Covers a 0 payment
        · rw [if_pos hcov, if_neg fun hc => hc.2 hcov]
          omega
        · rw [if_neg hcov, if_pos ⟨hpos, hcov⟩]
          omega
      · rename_i hpos
        rw [Decimal.isPositive_iff] at hpos
        rw [UnifiedState.credit_supply hmove, if_pos rfl]
        have hnot : ¬ (0 < payment.value ∧ ¬ u.Covers a 0 payment) := fun hc => hpos hc.1
        dsimp only
        rw [if_neg hnot, abs_of_nonpos (by omega)]
        omega

variable {mr : MarketId × Decimal}

theorem settleHolders_cases (h : settleHolders t e mr = .ok e') :
    (e.state.getMarket mr.1 = none ∧ e' = e) ∨
    ∃ market e₁, e.state.getMarket mr.1 = some market ∧
      (holders e.state mr.1).foldlM
        (settleAccount mr.1 mr.2 market.state.fundingAccumulator t) e = .ok e₁ ∧
      e' = { e₁ with state := e₁.state.recordMarketFunding mr.1 t mr.2.value } := by
  unfold settleHolders at h
  split at h
  · rename_i hnone
    exact .inl ⟨hnone, (pure_inv h).symm⟩
  · rename_i market hm
    obtain ⟨e₁, h1, h⟩ := bind_inv h
    exact .inr ⟨market, e₁, hm, h1, (pure_inv h).symm⟩

theorem holdersTrace_exists (h : settleHolders t e mr = .ok e') :
    ∃ xs, holdersTrace t e mr = .ok xs := by
  unfold holdersTrace
  rcases settleHolders_cases h with ⟨hnone, -⟩ | ⟨market, e₁, hm, hfold, -⟩
  · rw [hnone]
    exact ⟨_, rfl⟩
  · rw [hm]
    exact foldTrace_exists hfold fun _ _ _ hs => settlementOf_exists hs

/-- What settlements leave in the supply. -/
def leaked (xs : List Settlement) : Int := (xs.map fun x => x.refused - x.payment).sum

theorem leaked_eq (xs : List Settlement) :
    leaked xs = (xs.map (·.refused)).sum - (xs.map (·.payment)).sum := by
  unfold leaked
  induction xs with
  | nil => rfl
  | cons x xs ih =>
    simp only [List.map_cons, List.sum_cons, ih]
    omega

theorem settleHolders_supply {xs : List Settlement} (hshared : e.Shared)
    (h : settleHolders t e mr = .ok e') (hx : holdersTrace t e mr = .ok xs) :
    e'.Shared ∧ e'.usdcSupply = e.usdcSupply + leaked xs := by
  unfold holdersTrace at hx
  rcases settleHolders_cases h with ⟨hnone, rfl⟩ | ⟨market, e₁, hm, hfold, rfl⟩
  · rw [hnone] at hx
    obtain rfl := pure_inv hx
    exact ⟨hshared, by simp [leaked]⟩
  · rw [hm] at hx
    have hkeep : ∀ (s : Engine) i s', s.Shared →
        settleAccount mr.1 mr.2 market.state.fundingAccumulator t s i = .ok s' → s'.Shared := by
      intro s i s' hs hstep
      obtain ⟨x, hx⟩ := settlementOf_exists hstep
      exact (settleAccount_supply hs hstep hx).1
    have hsum := foldTrace_sum (v := usdcSupply) (w := fun x => x.refused - x.payment) hfold hx
      hshared hkeep fun s i s' y hs hstep hy => (settleAccount_supply hs hstep hy).2
    have hend : e₁.Shared := foldlM_induction (P := Shared) hfold hshared
      fun i _ s s' hs hstep => hkeep s i s' hs hstep
    exact ⟨hend, hsum⟩

end Settle

/-! ### Payments of one market -/

/-- What the position of an account owes at an accumulator, truncated to micro-USDC. -/
def owed (s : EngineState) (m : MarketId) (acc : Decimal) (a : AccountAddress) : Int :=
  match s.getPosition a m with
  | none => 0
  | some p => (p.size.value * (acc.value - p.lastFundingIndex.value)).tdiv
      (10 ^ acc.decimals * 10 ^ 2)

theorem settleFunding_payment {p p' : Position} {acc payment : Decimal} (hp : p.WF)
    (h : p.settleFunding acc = .ok (payment, p')) :
    payment.value = (p.size.value * (acc.value - p.lastFundingIndex.value)).tdiv
      (10 ^ acc.decimals * 10 ^ 2) ∧ p' = { p with lastFundingIndex := acc } := by
  obtain ⟨delta, hdelta, h⟩ := bind_inv h
  obtain ⟨product, hproduct, h⟩ := bind_inv h
  obtain ⟨u, hu, h⟩ := bind_inv h
  obtain ⟨rfl, rfl⟩ := pair_inv h
  obtain ⟨-, rfl⟩ := Decimal.sub_eq_ok.mp hdelta
  obtain ⟨-, -, rfl⟩ := Decimal.mul_eq_ok.mp hproduct
  rw [Decimal.toDecimals_down (by show 6 < p.size.decimals; rw [hp.size]; decide)] at hu
  obtain ⟨-, rfl⟩ := hu
  refine ⟨?_, rfl⟩
  dsimp only
  rw [hp.size, tdiv_tdiv (by positivity)]

section Market

variable {e e' : Engine} {s : EngineState} {m k : MarketId} {rate acc : Decimal}
  {t : Timestamp} {a b : AccountAddress}

theorem settleAccount_others (h : settleAccount m rate acc t e a = .ok e')
    (hne : ¬ (a = b ∧ m = k)) : e'.state.getPosition b k = e.state.getPosition b k := by
  rcases settleAccount_cases h with ⟨rfl, -⟩ | ⟨p, payment, p', -, -, -, hpos, -⟩
  · rfl
  · have hset : e'.state.getPosition b k = (e.state.setPosition a m p').getPosition b k := by
      unfold getPosition
      rw [hpos]
    rw [hset, getPosition_setPosition, if_neg hne]

theorem owed_congr {s' : EngineState} (h : s'.getPosition a m = s.getPosition a m) :
    owed s' m acc a = owed s m acc a := by
  unfold owed
  rw [h]

theorem settlementOf_payment {x : Settlement} (hwf : PositionsWF e.state) (hshared : e.Shared)
    (h : settlementOf m acc e a = .ok x) : x.payment = owed e.state m acc a := by
  obtain ⟨u, hu⟩ := Option.isSome_iff_exists.mp hshared
  unfold settlementOf at h
  unfold owed
  rw [hu] at h
  cases hp : e.state.getPosition a m with
  | none =>
    rw [hp] at h
    obtain rfl := pure_inv h
    rfl
  | some p =>
    rw [hp] at h
    dsimp only at h ⊢
    split at h
    · rename_i hempty
      obtain rfl := pure_inv h
      have hzero : p.size.value = 0 := by simpa [Position.isEmpty] using hempty
      simp [hzero]
    · obtain ⟨⟨payment, p'⟩, hsettle, h⟩ := bind_inv h
      obtain rfl := pure_inv h
      exact (settleFunding_payment (hwf _ _ _ hp) hsettle).1

/-- Every account of a market owes what it owed when the market's turn came. -/
theorem accounts_payments {as : List AccountAddress} {xs : List Settlement} (hnd : as.Nodup)
    (hwf : PositionsWF e.state) (hshared : e.Shared)
    (h : foldTrace (settleAccount m rate acc t) (settlementOf m acc) as e = .ok xs) :
    xs.map (·.payment) = as.map (owed e.state m acc) := by
  induction as generalizing e xs with
  | nil =>
    obtain rfl := pure_inv h
    rfl
  | cons a as ih =>
    obtain ⟨x, hx, e₁, h1, ys, hys, rfl⟩ := foldTrace_cons_eq_ok.mp h
    obtain ⟨ha, hnd⟩ := List.nodup_cons.mp hnd
    rw [List.map_cons, List.map_cons, settlementOf_payment hwf hshared hx,
      ih hnd ((settleAccount_posWrites h1).wf hwf) (settleAccount_supply hshared h1 hx).1 hys]
    congr 1
    refine List.map_congr_left fun b hb => owed_congr (settleAccount_others h1 ?_)
    rintro ⟨rfl, -⟩
    exact ha hb

theorem holders_eq (s : EngineState) (m : MarketId) :
    holders s m = s.positions.toList.filterMap fun p => (p.2[m]?).bind fun pos =>
      if pos.isEmpty then none else some p.1 := by
  unfold holders
  refine congrArg (fun f => List.filterMap f s.positions.toList) (funext fun p => ?_)
  cases p.2[m]? <;> rfl

theorem holders_nodup (s : EngineState) (m : MarketId) : (holders s m).Nodup := by
  have hsub : ∀ l : List (AccountAddress × FinMap MarketId Position),
      (l.filterMap fun p => (p.2[m]?).bind fun pos =>
        if pos.isEmpty then none else some p.1).Sublist (l.map (·.1)) := by
    intro l
    induction l with
    | nil => exact .slnil
    | cons p l ih =>
      rw [List.filterMap_cons, List.map_cons]
      split
      · exact ih.cons _
      · rename_i b hb
        have hbp : b = p.1 := by
          obtain ⟨pos, -, hb⟩ := Option.bind_eq_some_iff.mp hb
          split at hb
          · cases hb
          · exact (Option.some.inj hb).symm
        rw [hbp]
        exact ih.cons_cons _
  rw [holders_eq]
  exact (FinMap.nodup_keys s.positions).sublist (hsub _)

/-- Sizes over the holders of a market. -/
theorem holders_sizes (s : EngineState) (m : MarketId) :
    ((holders s m).map (s.sizeAt · m)).sum = sumSizes (fun x => x) s m := by
  have hall : ∀ l : List (AccountAddress × FinMap MarketId Position),
      (∀ p ∈ l, s.positions[p.1]? = some p.2) →
      ((l.filterMap fun p => (p.2[m]?).bind fun pos =>
        if pos.isEmpty then none else some p.1).map (s.sizeAt · m)).sum =
      (l.map fun p => ((p.2[m]?).map (·.size.value)).getD 0).sum := by
    intro l
    induction l with
    | nil => exact fun _ => rfl
    | cons p l ih =>
      intro hl
      have hsize : s.sizeAt p.1 m = ((p.2[m]?).map (·.size.value)).getD 0 := by
        unfold sizeAt getPosition
        rw [hl p (.head _)]
        rfl
      have htail := ih fun q hq => hl q (.tail _ hq)
      rw [List.map_cons, List.sum_cons, List.filterMap_cons, ← htail]
      cases hp : p.2[m]? with
      | none => simp
      | some pos =>
        rw [Option.bind_some]
        by_cases hempty : pos.isEmpty = true
        · have hzero : pos.size.value = 0 := by simpa [Position.isEmpty] using hempty
          rw [if_pos hempty]
          simp [hzero]
        · rw [if_neg hempty, List.map_cons, List.sum_cons, hsize, hp]
  rw [holders_eq]
  exact hall _ fun p hp => FinMap.mem_toList.mp hp

/-- All positions of a market have one funding index. -/
def Level (s : EngineState) (m : MarketId) : Prop :=
  ∃ index, ∀ a p, s.getPosition a m = some p → p.lastFundingIndex = index

/-- **Cancelling payments.** Where sizes cancel and positions are level, the truncated
payments of a market add up to at most their number. -/
theorem payments_cancel (hsum : sumSizes (fun x => x) s m = 0) (hlevel : Level s m)
    (acc : Decimal) :
    |((holders s m).map (owed s m acc)).sum| ≤ (holders s m).length := by
  obtain ⟨index, hindex⟩ := hlevel
  have howed : ∀ a, owed s m acc a =
      (s.sizeAt a m * (acc.value - index.value)).tdiv (10 ^ acc.decimals * 10 ^ 2) := by
    intro a
    unfold owed sizeAt
    cases hp : s.getPosition a m with
    | none => simp
    | some p =>
      dsimp only
      rw [hindex a p hp]
      rfl
  have hzero : ((holders s m).map fun a => s.sizeAt a m * (acc.value - index.value)).sum = 0 := by
    rw [List.sum_map_mul_right, holders_sizes, hsum, zero_mul]
  have hle := abs_sum_tdiv_le (d := 10 ^ acc.decimals * 10 ^ 2) (by positivity) hzero
  rw [List.map_map, List.length_map] at hle
  rwa [show (holders s m).map (owed s m acc) = (holders s m).map
    ((·.tdiv (10 ^ acc.decimals * 10 ^ 2)) ∘ fun a => s.sizeAt a m * (acc.value - index.value))
    from List.map_congr_left fun a _ => howed a]

/-- Sizes in a market cancel, and its positions are level. -/
structure Cancels (s : EngineState) (m : MarketId) : Prop where
  sizes : sumSizes (fun x => x) s m = 0
  level : Level s m

variable {mr : MarketId × Decimal}

theorem settleHolders_others (h : settleHolders t e mr = .ok e') (hne : mr.1 ≠ k)
    (b : AccountAddress) :
    e'.state.getPosition b k = e.state.getPosition b k := by
  rcases settleHolders_cases h with ⟨-, rfl⟩ | ⟨market, e₁, -, hfold, rfl⟩
  · rfl
  · have hkept : e₁.state.getPosition b k = e.state.getPosition b k :=
      foldlM_induction (P := fun x => x.state.getPosition b k = e.state.getPosition b k) hfold
        rfl fun _ _ _ _ hx hs => (settleAccount_others hs fun hc => hne hc.2).trans hx
    exact hkept

/-- The turn of one market leaves the others level, and their sizes. -/
theorem Cancels.of_settled (hk : Cancels e.state k) (h : settleHolders t e mr = .ok e')
    (hne : mr.1 ≠ k) : Cancels e'.state k := by
  obtain ⟨index, hindex⟩ := hk.level
  refine ⟨((settleHolders_sizesKept h).sums _ k rfl).trans hk.sizes, index, fun a p hp => ?_⟩
  rw [settleHolders_others h hne] at hp
  exact hindex a p hp

theorem settleHolders_wf (hwf : PositionsWF e.state) (h : settleHolders t e mr = .ok e') :
    PositionsWF e'.state := by
  rcases settleHolders_cases h with ⟨-, rfl⟩ | ⟨market, e₁, -, hfold, rfl⟩
  · exact hwf
  · exact foldlM_induction (P := fun x => PositionsWF x.state) hfold hwf
      fun _ _ _ _ hx hs => (settleAccount_posWrites hs).wf hx

/-- All payments of one market's turn. -/
theorem holdersTrace_payments {xs : List Settlement} (hwf : PositionsWF e.state)
    (hshared : e.Shared) (hcancel : Cancels e.state mr.1) (hx : holdersTrace t e mr = .ok xs) :
    |(xs.map (·.payment)).sum| ≤ xs.length := by
  unfold holdersTrace at hx
  split at hx
  · obtain rfl := pure_inv hx
    simp
  · rename_i market hm
    have hpayments := accounts_payments (holders_nodup e.state mr.1) hwf hshared hx
    have hlength : xs.length = (holders e.state mr.1).length := by
      rw [← List.length_map (f := (·.payment)), hpayments, List.length_map]
    rw [hpayments, hlength]
    exact payments_cancel hcancel.sizes hcancel.level _

end Market

/-! ### The whole call -/

section Call

variable {e e' : Engine} {t : Timestamp}
variable {rates : List (MarketId × Decimal)}

/-- The rates of a funding call are those of markets in turn; settling them moves neither
positions nor balances. -/
theorem settleMarkets_spec {ms : List MarketId} {rates' : List (MarketId × Decimal)}
    (h : ms.foldlM (settleMarket t) (rates, e) = .ok (rates', e')) :
    ∃ new, rates' = rates ++ new ∧ (new.map (·.1)).Sublist ms ∧
      e'.state.positions = e.state.positions ∧ e'.unifiedState = e.unifiedState := by
  induction ms generalizing e rates with
  | nil =>
    obtain ⟨rfl, rfl⟩ := Prod.mk.inj (foldlM_nil_eq_ok.mp h)
    exact ⟨[], (List.append_nil _).symm, .slnil, rfl, rfl⟩
  | cons m ms ih =>
    obtain ⟨⟨rates₁, e₁⟩, h1, h⟩ := foldlM_cons_eq_ok.mp h
    obtain ⟨new, rfl, hsub, hpos, hun⟩ := ih h
    rcases settleMarket_cases h1 with ⟨rfl, rfl⟩ | ⟨market, rate, s, -, -, hs, rfl, rfl⟩
    · exact ⟨new, rfl, hsub.cons _, hpos, hun⟩
    · obtain ⟨_, rfl⟩ := modifyMarket_only hs
      exact ⟨(m, rate) :: new, by simp, hsub.cons_cons _, hpos, hun⟩

theorem fundingTrace_exists (h : e.processFunding t = .ok (rates, e')) :
    ∃ xss, fundingTrace t e = .ok xss := by
  obtain ⟨⟨rates₁, e₁⟩, h1, h⟩ := bind_inv h
  obtain ⟨e₂, h2, -⟩ := bind_inv h
  obtain ⟨xss, hxss⟩ := foldTrace_exists h2 fun _ _ _ hs => holdersTrace_exists hs
  exact ⟨xss, bind_eq_ok.mpr ⟨_, h1, hxss⟩⟩

/-- **Supply.** A funding call moves the supply by what is refused less all payments. -/
theorem processFunding_supply {xss : List (List Settlement)} (hshared : e.Shared)
    (h : e.processFunding t = .ok (rates, e')) (hx : fundingTrace t e = .ok xss) :
    e'.usdcSupply = e.usdcSupply + leaked xss.flatten := by
  obtain ⟨⟨rates₁, e₁⟩, h1, h⟩ := bind_inv h
  obtain ⟨e₂, h2, h⟩ := bind_inv h
  obtain ⟨-, rfl⟩ := pair_inv h
  obtain ⟨x, h1', hx⟩ := bind_inv hx
  obtain rfl := ok_unique h1 h1'
  obtain ⟨-, -, -, -, hun⟩ := settleMarkets_spec h1
  have hshared₁ : e₁.Shared := by
    unfold Shared
    rwa [hun]
  have hsum := foldTrace_sum (v := usdcSupply) (w := leaked) h2 hx hshared₁
    (fun s i s' hs hstep => by
      obtain ⟨xs, hxs⟩ := holdersTrace_exists hstep
      exact (settleHolders_supply hs hstep hxs).1)
    fun s i s' y hs hstep hy => (settleHolders_supply hs hstep hy).2
  have hstart : e₁.usdcSupply = e.usdcSupply := by
    unfold usdcSupply
    rw [hun]
  rw [hsum, hstart]
  congr 1
  unfold leaked
  rw [List.map_flatten, List.sum_flatten, List.map_map]
  rfl

/-- **Payments.** Market after market, the payments of markets that cancel add up to at
most their number. -/
theorem rates_payments {xss : List (List Settlement)} (hnd : (rates.map (·.1)).Nodup)
    (hwf : PositionsWF e.state) (hshared : e.Shared) (hcancel : ∀ mr ∈ rates, Cancels e.state mr.1)
    (hx : foldTrace (settleHolders t) (holdersTrace t) rates e = .ok xss) :
    |(xss.flatten.map (·.payment)).sum| ≤ xss.flatten.length := by
  induction rates generalizing e xss with
  | nil =>
    obtain rfl := pure_inv hx
    simp
  | cons mr rates ih =>
    obtain ⟨xs, hxs, e₁, h1, xss, hxss, rfl⟩ := foldTrace_cons_eq_ok.mp hx
    rw [List.map_cons, List.nodup_cons] at hnd
    have hhead := holdersTrace_payments hwf hshared (hcancel mr (.head _)) hxs
    have htail := ih hnd.2 (settleHolders_wf hwf h1) (settleHolders_supply hshared h1 hxs).1
      (fun mr' hmem => (hcancel mr' (.tail _ hmem)).of_settled h1 fun heq =>
        hnd.1 (heq ▸ List.mem_map_of_mem hmem)) hxss
    rw [List.flatten_cons, List.map_append, List.sum_append, List.length_append]
    push_cast
    exact (abs_add_le _ _).trans (add_le_add hhead htail)

/-- **Conservation.** From any reachable engine whose markets cancel, the payments of a
funding call add up to at most one micro-USDC for each settlement, and the call creates no
more than that exactly when the refused payments do not exceed it together with the net
payment. -/
theorem funding_conserves_iff_debits_made {rates : List (MarketId × Decimal)} (h0 : Reachable e)
    (hcancel : ∀ m market, e.state.getMarket m = some market → Cancels e.state m)
    (hshared : e.Shared) (h : e.processFunding t = .ok (rates, e')) :
    ∃ xss, fundingTrace t e = .ok xss ∧
      |(xss.flatten.map (·.payment)).sum| ≤ xss.flatten.length ∧
      (e'.usdcSupply ≤ e.usdcSupply + xss.flatten.length ↔
        (xss.flatten.map (·.refused)).sum ≤
          xss.flatten.length + (xss.flatten.map (·.payment)).sum) := by
  obtain ⟨xss, hx⟩ := fundingTrace_exists h
  refine ⟨xss, hx, ?_, ?_⟩
  · obtain ⟨⟨rates₁, e₁⟩, h1, hx⟩ := bind_inv hx
    obtain ⟨new, rfl, hsub, hpos, hun⟩ := settleMarkets_spec h1
    have hposition : ∀ a m, e₁.state.getPosition a m = e.state.getPosition a m := by
      intro a m
      unfold getPosition
      rw [hpos]
    refine rates_payments ((FinMap.nodup_keys e.state.markets).sublist hsub) ?_ ?_ ?_ hx
    · intro a m p hp
      exact h0.positionsWF a m p ((hposition a m).symm.trans hp)
    · unfold Shared
      rwa [hun]
    · intro mr hmem
      obtain ⟨p, hp, hkey⟩ := List.mem_map.mp (hsub.subset (List.mem_map_of_mem hmem))
      obtain ⟨hsizes, index, hindex⟩ := hcancel mr.1 p.2 (hkey ▸ FinMap.mem_toList.mp hp)
      refine ⟨?_, index, fun a q hq => hindex a q ((hposition a mr.1).symm.trans hq)⟩
      rw [← hsizes]
      unfold sumSizes
      rw [hpos]
  · rw [processFunding_supply hshared h hx, leaked_eq]
    omega

end Call

/-! ### Two calls -/

/-- A trade by account 1, a view transfer by it, and a funding call. -/
def fundedAfter (moved : Int) : Exec (Engine × List (MarketId × Decimal) × Engine) := do
  let (e, _) ← viewTransferRun moved
  let (rates, e') ← e.processFunding 28800000
  return (e, rates, e')

theorem fundedAfter_eq_ok {moved : Int} {e e' : Engine} {rates : List (MarketId × Decimal)}
    (h : fundedAfter moved = .ok (e, rates, e')) :
    Reachable e ∧ e.Shared ∧ e.processFunding 28800000 = .ok (rates, e') := by
  obtain ⟨⟨e₁, u⟩, h1, h⟩ := bind_inv h
  obtain ⟨⟨rates₁, e₂⟩, h2, h⟩ := bind_inv h
  obtain ⟨rfl, hpair⟩ := pair_inv h
  obtain ⟨rfl, rfl⟩ := Prod.mk.inj hpair
  obtain ⟨hr, hu⟩ := viewTransferRun_eq_ok h1
  refine ⟨hr, ?_, h2⟩
  unfold Shared
  rw [hu]
  rfl

/-- Sizes cancel and positions are level at an index, market by market. -/
def cancelsAt (s : EngineState) (index : Decimal) : Bool :=
  s.markets.toList.all fun mk => sumSizes (fun x => x) s mk.1 = 0 &&
    s.positions.toList.all fun p => (p.2[mk.1]?).all (·.lastFundingIndex = index)

theorem cancelsAt_spec {s : EngineState} {index : Decimal} (h : cancelsAt s index = true)
    (m : MarketId) (market : Market) (hm : s.getMarket m = some market) : Cancels s m := by
  have hmarket := List.all_eq_true.mp h (m, market) (FinMap.mem_toList.mpr hm)
  rw [Bool.and_eq_true] at hmarket
  refine ⟨of_decide_eq_true hmarket.1, index, fun a p hp => ?_⟩
  obtain ⟨ps, hps, hpm⟩ := Option.bind_eq_some_iff.mp hp
  have hall := List.all_eq_true.mp hmarket.2 (a, ps) (FinMap.mem_toList.mpr hps)
  dsimp only at hall
  rw [hpm] at hall
  exact of_decide_eq_true hall

/-- The long pays 3.275 USDC and has it: supply stays. -/
theorem funding_conserves_when_covered : ∃ (e e' : Engine) (rates : List (MarketId × Decimal))
    (xss : List (List Settlement)), Reachable e ∧ e.processFunding 28800000 = .ok (rates, e') ∧
      fundingTrace 28800000 e = .ok xss ∧ xss.flatten.map (·.refused) = [0, 0] ∧
      e'.usdcSupply ≤ e.usdcSupply + xss.flatten.length := by
  obtain ⟨⟨e, rates, e'⟩, hrun, htest⟩ := exists_of_test (x := fundedAfter 0)
    (p := fun x => cancelsAt x.1.state Position.new.lastFundingIndex &&
      decide (fundingTrace 28800000 x.1 = .ok [[⟨3275000, 0⟩, ⟨-3275000, 0⟩]]))
    (by decide +kernel)
  rw [Bool.and_eq_true] at htest
  obtain ⟨h0, hshared, hfund⟩ := fundedAfter_eq_ok hrun
  obtain ⟨xss, hx, -, hiff⟩ :=
    funding_conserves_iff_debits_made h0 (cancelsAt_spec htest.1) hshared hfund
  obtain rfl := Except.ok.inj (hx.symm.trans (of_decide_eq_true htest.2))
  exact ⟨e, e', rates, _, h0, hfund, hx, rfl, hiff.mpr (by decide)⟩

/-- The long has moved all but 1 USDC to its EVM view: its debit is refused, and the short
is credited 3.275 USDC that nobody paid. -/
theorem funding_mints_refused_payment : ∃ (e e' : Engine) (rates : List (MarketId × Decimal))
    (xss : List (List Settlement)), Reachable e ∧ e.Shared ∧
      (∀ m market, e.state.getMarket m = some market → Cancels e.state m) ∧
      e.processFunding 28800000 = .ok (rates, e') ∧
      fundingTrace 28800000 e = .ok xss ∧ xss.flatten.length = 2 ∧
      e'.usdcSupply = e.usdcSupply + 3275000 := by
  obtain ⟨⟨e, rates, e'⟩, hrun, htest⟩ := exists_of_test (x := fundedAfter 9995500000)
    (p := fun x => cancelsAt x.1.state Position.new.lastFundingIndex &&
      decide (fundingTrace 28800000 x.1 = .ok [[⟨3275000, 3275000⟩, ⟨-3275000, 0⟩]] ∧
        x.2.2.usdcSupply = x.1.usdcSupply + 3275000)) (by decide +kernel)
  rw [Bool.and_eq_true] at htest
  obtain ⟨h0, hshared, hfund⟩ := fundedAfter_eq_ok hrun
  obtain ⟨hx, hsupply⟩ := of_decide_eq_true htest.2
  exact ⟨e, e', rates, _, h0, hshared, cancelsAt_spec htest.1, hfund, hx, rfl, hsupply⟩

end Engine

end Hypercore
