import Hypercore.Engine.Equity
import Hypercore.Engine.Ledger
/-!
# Hypercore.Engine.Balances

The engine's copy of an account balance against the USDC core view it mirrors.

`place_order` copies the view before it checks margin, so that check never reads a stale
balance (`openAccount_agrees`). Liquidation reads the copy as it is. Fees and funding are
written to both sides, but the view refuses a debit it does not cover and the copy does
not, and changes made elsewhere reach the view only. The two agree along every run in
which neither happens.
-/

namespace Hypercore

open Exec Int128

namespace Engine

open EngineState

/-- The engine's copy of the balance of an account. -/
def balanceOf (s : EngineState) (a : AccountAddress) : Option Int :=
  (s.getAccount a).map (·.balance)

/-- The copy of one account's balance is its USDC core view. -/
def AgreesAt (e : Engine) (a : AccountAddress) : Prop :=
  ∀ u, e.unifiedState = some u → ∀ b, balanceOf e.state a = some b → b = u.coreRaw a 0

/-- The copies of all balances are the USDC core views. -/
def BalancesAgree (e : Engine) : Prop := ∀ a, e.AgreesAt a

/-! ### What acts do to both sides -/

section Sides

variable {e e' : Engine} {s s' : EngineState} {u u' : UnifiedState}

theorem balanceOf_congr (h : s'.accounts = s.accounts) (a : AccountAddress) :
    balanceOf s' a = balanceOf s a := by
  unfold balanceOf getAccount
  rw [h]

variable {a : AccountAddress} {fill : Fill}

/-- A change of one account's balance. -/
theorem modifyAccount_balance {f : AccountState → Exec AccountState} {d : Int}
    (hf : ∀ acc acc', f acc = .ok acc' → acc'.balance = acc.balance + d)
    (h : s.modifyAccount a f = .ok s') (b : AccountAddress) :
    balanceOf s' b = (balanceOf s b).map (· + if a = b then d else 0) := by
  unfold balanceOf
  rcases modifyAccount_eq_ok h with ⟨hnone, rfl⟩ | ⟨acc, acc', hacc, hfa, rfl⟩
  · by_cases hab : a = b
    · rw [← hab, hnone]
      rfl
    · cases s'.getAccount b <;> simp [hab]
  · simp only [getAccount, FinMap.get_insert]
    split
    · rename_i hab
      have hacc' : s.accounts[b]? = some acc := hab ▸ hacc
      rw [hacc']
      simp [hf acc acc' hfa]
    · cases s.accounts[b]? <;> simp

theorem subBalance_balance {fee : Int} (h : subBalance s a fee = .ok s') (b : AccountAddress) :
    balanceOf s' b = (balanceOf s b).map (· + if a = b then -fee else 0) := by
  refine modifyAccount_balance (fun acc acc' hf => ?_) h b
  obtain ⟨v, hv, hf⟩ := bind_inv hf
  obtain rfl := pure_inv hf
  obtain ⟨-, rfl⟩ := i128_eq_ok.mp hv
  exact Int.sub_eq_add_neg

/-- Charging the maker, the first half of `chargeUnified`. -/
def chargeMaker (u : UnifiedState) (fill : Fill) : Exec UnifiedState :=
  if fill.makerFee > 0 then do
    let (_, u) ← u.debitCore fill.maker 0 ⟨fill.makerFee, 6⟩
    return u
  else if fill.makerFee < 0 then do
    let rebate ← i128 (-fill.makerFee)
    u.credit fill.maker 0 ⟨rebate, 6⟩
  else return u

/-- Charging the taker, the second half. -/
def chargeTaker (u : UnifiedState) (fill : Fill) : Exec UnifiedState :=
  if fill.takerFee > 0 then do
    let (_, u) ← u.debitCore fill.taker 0 ⟨ofU128 fill.takerFee, 6⟩
    return u
  else return u

theorem chargeUnified_eq (u : UnifiedState) (fill : Fill) :
    chargeUnified u fill = (do chargeTaker (← chargeMaker u fill) fill) := rfl

/-- The core views cover both fees of a fill, the maker's first. -/
def FeesCovered (u : UnifiedState) (fill : Fill) : Prop :=
  (0 < fill.makerFee → u.Covers fill.maker 0 ⟨fill.makerFee, 6⟩) ∧
    After (chargeMaker u fill) fun u =>
      0 < fill.takerFee → u.Covers fill.taker 0 ⟨ofU128 fill.takerFee, 6⟩

/-- Fees that are covered leave the core views, and a rebate enters one. -/
theorem chargeUnified_core (hcov : FeesCovered u fill) (h : chargeUnified u fill = .ok u')
    (b : AccountAddress) :
    u'.coreRaw b 0 = u.coreRaw b 0 + (if fill.maker = b then -fill.makerFee else 0) +
      if fill.taker = b then -(ofU128 fill.takerFee) else 0 := by
  rw [chargeUnified_eq] at h
  obtain ⟨u₁, h1, h⟩ := bind_inv h
  have hmaker : u₁.coreRaw b 0 =
      u.coreRaw b 0 + if fill.maker = b then -fill.makerFee else 0 := by
    unfold chargeMaker at h1
    split at h1
    · rename_i hpos
      obtain ⟨⟨r, u₂⟩, hdebit, h1⟩ := bind_inv h1
      obtain rfl := pure_inv h1
      rw [UnifiedState.debitCore_covered hdebit (hcov.1 hpos)]
      by_cases hb : fill.maker = b <;> simp [hb]
      omega
    · split at h1
      · obtain ⟨rebate, hrebate, h1⟩ := bind_inv h1
        obtain ⟨-, rfl⟩ := i128_eq_ok.mp hrebate
        rw [UnifiedState.credit_core h1]
        simp
      · obtain rfl := pure_inv h1
        have hzero : fill.makerFee = 0 := by omega
        simp [hzero]
  have htaker : u'.coreRaw b 0 =
      u₁.coreRaw b 0 + if fill.taker = b then -(ofU128 fill.takerFee) else 0 := by
    unfold chargeTaker at h
    split at h
    · rename_i hpos
      obtain ⟨⟨r, u₂⟩, hdebit, h⟩ := bind_inv h
      obtain rfl := pure_inv h
      rw [UnifiedState.debitCore_covered hdebit (hcov.2 _ h1 hpos)]
      by_cases hb : fill.taker = b <;> simp [hb]
      omega
    · obtain rfl := pure_inv h
      have hzero : fill.takerFee = 0 := by omega
      simp [hzero, ofU128]
  rw [htaker, hmaker]

theorem applyFill_balance (h : e.applyFill fill = .ok e') (b : AccountAddress) :
    balanceOf e'.state b = (balanceOf e.state b).map (· +
      ((if fill.maker = b then -fill.makerFee else 0) +
        if fill.taker = b then -(ofU128 fill.takerFee) else 0)) := by
  obtain ⟨s₁, s₂, s₃, s₄, u, h1, h2, h3, h4, rfl⟩ := applyFill_steps h
  have hpositions : s₁.accounts = e.state.accounts := by
    obtain ⟨t₁, g1, h1⟩ := bind_inv h1
    obtain ⟨t₂, g2, h1⟩ := bind_inv h1
    obtain ⟨⟨_, _⟩, -, h1⟩ := bind_inv h1
    obtain ⟨_, -, h1⟩ := bind_inv h1
    obtain ⟨_, -, h1⟩ := bind_inv h1
    obtain ⟨⟨_, _⟩, -, h1⟩ := bind_inv h1
    obtain ⟨_, -, h1⟩ := bind_inv h1
    obtain ⟨_, -, h1⟩ := bind_inv h1
    obtain ⟨_, rfl⟩ := modifyPosition_only g1
    obtain ⟨_, rfl⟩ := modifyPosition_only g2
    obtain ⟨_, rfl⟩ := modifyMarket_only h1
    rfl
  have hrecord : (fillRecord s₄ fill).accounts = s₃.accounts := by
    obtain ⟨_, rfl⟩ := fillMarket_only h4
    exact (fillRecord_positions _ fill).2
  rw [balanceOf_congr hrecord, subBalance_balance h3, subBalance_balance h2,
    balanceOf_congr hpositions, Option.map_map]
  congr 1
  funext x
  exact add_assoc _ _ _

theorem applyFill_unified (h : e.applyFill fill = .ok e') :
    onUnified e.unifiedState (chargeUnified · fill) = .ok e'.unifiedState := by
  obtain ⟨s₁, -, h⟩ := bind_inv h
  obtain ⟨s₂, -, h⟩ := bind_inv h
  obtain ⟨s₃, -, h⟩ := bind_inv h
  obtain ⟨u, hu, h⟩ := bind_inv h
  obtain ⟨s₄, -, h⟩ := bind_inv h
  obtain rfl := pure_inv h
  exact hu

theorem onUnified_eq_ok {x y : Option UnifiedState} {f : UnifiedState → Exec UnifiedState}
    (h : onUnified x f = .ok y) :
    (x = none ∧ y = none) ∨ ∃ u u', x = some u ∧ y = some u' ∧ f u = .ok u' := by
  cases x with
  | none => exact .inl ⟨rfl, (pure_inv h).symm⟩
  | some u =>
    obtain ⟨u', hu, h⟩ := bind_inv h
    exact .inr ⟨u, u', rfl, (pure_inv h).symm, hu⟩

/-- **Settling one account.** Without an open position nothing happens; else the payment
leaves (or enters) the engine's balance, and the unified state is asked for the same. -/
theorem settleAccount_cases {m : MarketId} {rate acc : Decimal} {t : Timestamp}
    (h : settleAccount m rate acc t e a = .ok e') :
    (e' = e ∧ ∀ p, e.state.getPosition a m = some p → p.isEmpty = true) ∨
    ∃ p payment p', e.state.getPosition a m = some p ∧ p.isEmpty = false ∧
      p.settleFunding acc = .ok (payment, p') ∧
      e'.state.positions = (e.state.setPosition a m p').positions ∧
      (∀ b, balanceOf e'.state b =
        (balanceOf e.state b).map (· + if a = b then -payment.value else 0)) ∧
      ((payment.value = 0 ∧ e'.unifiedState = e.unifiedState) ∨
        ∃ paymentAbs, payment.value ≠ 0 ∧ payment.abs = .ok paymentAbs ∧
          onUnified e.unifiedState (payUnified · a payment paymentAbs) =
            .ok e'.unifiedState) := by
  unfold settleAccount at h
  split at h
  · rename_i hnone
    obtain rfl := pure_inv h
    exact .inl ⟨rfl, fun p hp => by rw [hnone] at hp; cases hp⟩
  · rename_i p hp
    split at h
    · rename_i hempty
      obtain rfl := pure_inv h
      refine .inl ⟨rfl, fun q hq => ?_⟩
      obtain rfl := Option.some.inj (hp.symm.trans hq)
      exact hempty
    · rename_i hopen
      obtain ⟨⟨payment, p'⟩, hsettle, h⟩ := bind_inv h
      refine .inr ⟨p, payment, p', hp, by simpa using hopen, hsettle, ?_⟩
      dsimp only at h
      split at h
      · rename_i hz
        obtain rfl := pure_inv h
        have hzero : payment.value = 0 := by simpa using hz
        refine ⟨rfl, fun b => ?_, .inl ⟨hzero, rfl⟩⟩
        show balanceOf e.state b = _
        rw [hzero]
        cases balanceOf e.state b <;> simp
      · rename_i hz
        obtain ⟨paymentAbs, habs, h⟩ := bind_inv h
        obtain ⟨u, hu, h⟩ := bind_inv h
        obtain ⟨s₁, h1, h⟩ := bind_inv h
        obtain rfl := pure_inv h
        have hvalue : paymentAbs.value = |payment.value| := by
          rw [(Decimal.abs_eq_ok.mp habs).2]
        refine ⟨?_, fun b => ?_, .inr ⟨paymentAbs, by simpa using hz, habs, hu⟩⟩
        · obtain ⟨_, rfl⟩ := modifyAccount_only h1
          rfl
        · have hbal := modifyAccount_balance (d := -payment.value) (fun x y hxy => by
            obtain ⟨v, hv, hxy⟩ := bind_inv hxy
            obtain rfl := pure_inv hxy
            obtain ⟨-, rfl⟩ := i128_eq_ok.mp hv
            dsimp only
            split
            · rename_i hpos
              rw [Decimal.isPositive_iff] at hpos
              rw [hvalue, abs_of_pos hpos]
              omega
            · rename_i hpos
              rw [Decimal.isPositive_iff] at hpos
              rw [hvalue, abs_of_nonpos (by omega)]) h1 b
          exact hbal

/-- A payment that is covered when it is positive. -/
theorem payUnified_core {payment paymentAbs : Decimal} (habs : payment.abs = .ok paymentAbs)
    (hcov : payment.isPositive = true → u.Covers a 0 paymentAbs)
    (h : payUnified u a payment paymentAbs = .ok u') (b : AccountAddress) :
    u'.coreRaw b 0 = u.coreRaw b 0 + if a = b then -payment.value else 0 := by
  obtain ⟨-, rfl⟩ := Decimal.abs_eq_ok.mp habs
  unfold payUnified at h
  split at h
  · rename_i hpos
    obtain ⟨⟨r, u₁⟩, hdebit, h⟩ := bind_inv h
    obtain rfl := pure_inv h
    rw [UnifiedState.debitCore_covered hdebit (hcov hpos)]
    rw [Decimal.isPositive_iff] at hpos
    by_cases hb : a = b <;> simp [hb, abs_of_pos hpos]
    omega
  · rename_i hpos
    rw [Decimal.isPositive_iff] at hpos
    rw [UnifiedState.credit_core h]
    by_cases hb : a = b <;> simp [hb, abs_of_nonpos (show payment.value ≤ 0 by omega)]

/-- A synchronised account has its core view, and no other account changes. -/
theorem syncAccount_balance (hu : e.unifiedState = some u) (a b : AccountAddress) :
    balanceOf (e.syncAccount a).state b =
      if a = b then some (u.coreRaw a 0) else balanceOf e.state b := by
  unfold syncAccount
  rw [hu]
  dsimp only
  obtain ⟨acc, hacc⟩ : ∃ acc, (e.state.getOrCreateAccount a).accounts[a]? = some acc := by
    unfold getOrCreateAccount
    split
    · rename_i acc hacc
      exact ⟨acc, hacc⟩
    · exact ⟨.default, FinMap.get_insert_self _ _ _⟩
  rw [hacc]
  unfold balanceOf
  simp only [getAccount, FinMap.get_insert]
  split
  · rfl
  · rename_i hab
    unfold getOrCreateAccount
    split
    · rfl
    · simp only [FinMap.get_insert, if_neg hab]

theorem syncAccount_unified (e : Engine) (a : AccountAddress) :
    (e.syncAccount a).unifiedState = e.unifiedState := by
  obtain ⟨_, h⟩ := syncAccount_only e a
  rw [h]

end Sides

/-! ### Conditions -/

/-- The fees of a fill are covered in the shared balances. -/
def FeesPaid (e : Engine) (fill : Fill) : Prop :=
  match e.unifiedState with
  | none => True
  | some u => FeesCovered u fill

/-- What an account owes in a settlement is covered in the shared balances. -/
def PaymentCovered (m : MarketId) (acc : Decimal) (e : Engine) (a : AccountAddress) : Prop :=
  match e.unifiedState, e.state.getPosition a m with
  | some u, some p => p.isEmpty = false → After (p.settleFunding acc) fun x =>
      x.1.isPositive = true → After x.1.abs (u.Covers a 0)
  | _, _ => True

/-- The shared balances change and keep the USDC core views of the engine's accounts. -/
def ViewsKept (e : Engine) (u' : UnifiedState) : Prop :=
  match e.unifiedState with
  | none => True
  | some u => ∀ p ∈ e.state.accounts.toList, u'.coreRaw p.1 0 = u.coreRaw p.1 0

/-- An operation debits both copies or neither: fees and funding are covered, deposits
and withdrawals of an engine with shared balances are not made in the engine, and what
happens to the shared balances elsewhere does not touch the engine's accounts. -/
def BothSides (e : Engine) (op : Op) : Prop :=
  StepMeets FeesPaid PaymentCovered e op ∧
    match op with
    | .deposit .. | .withdraw .. => e.unifiedState.isNone = true
    | .setUnified u => ViewsKept e u
    | _ => True

instance (e : Engine) (fill : Fill) : Decidable (FeesPaid e fill) :=
  match h : e.unifiedState with
  | none => .isTrue (by
    unfold FeesPaid
    rw [h]
    trivial)
  | some u => decidable_of_iff ((0 < fill.makerFee → u.Covers fill.maker 0 ⟨fill.makerFee, 6⟩) ∧
      After (chargeMaker u fill) fun u =>
        0 < fill.takerFee → u.Covers fill.taker 0 ⟨ofU128 fill.takerFee, 6⟩) (by
    unfold FeesPaid
    rw [h]
    rfl)

instance (m : MarketId) (acc : Decimal) (e : Engine) (a : AccountAddress) :
    Decidable (PaymentCovered m acc e a) :=
  match h : e.unifiedState, hp : e.state.getPosition a m with
  | none, _ => .isTrue (by
    unfold PaymentCovered
    rw [h]
    trivial)
  | some _, none => .isTrue (by
    unfold PaymentCovered
    rw [h, hp]
    trivial)
  | some u, some p => decidable_of_iff (p.isEmpty = false → After (p.settleFunding acc) fun x =>
      x.1.isPositive = true → After x.1.abs (u.Covers a 0)) (by
    unfold PaymentCovered
    rw [h, hp])

instance (e : Engine) (u' : UnifiedState) : Decidable (ViewsKept e u') :=
  match h : e.unifiedState with
  | none => .isTrue (by
    unfold ViewsKept
    rw [h]
    trivial)
  | some u => decidable_of_iff (∀ p ∈ e.state.accounts.toList,
      u'.coreRaw p.1 0 = u.coreRaw p.1 0) (by
    unfold ViewsKept
    rw [h])

instance (e : Engine) : ∀ op, Decidable (BothSides e op)
  | .deposit a n => inferInstanceAs (Decidable
      (StepMeets FeesPaid PaymentCovered e (.deposit a n) ∧ e.unifiedState.isNone = true))
  | .withdraw a n => inferInstanceAs (Decidable
      (StepMeets FeesPaid PaymentCovered e (.withdraw a n) ∧ e.unifiedState.isNone = true))
  | .setUnified u => inferInstanceAs (Decidable
      (StepMeets FeesPaid PaymentCovered e (.setUnified u) ∧ ViewsKept e u))
  | .placeOrder a q t => inferInstanceAs (Decidable
      (StepMeets FeesPaid PaymentCovered e (.placeOrder a q t) ∧ True))
  | .checkTriggers m p t => inferInstanceAs (Decidable
      (StepMeets FeesPaid PaymentCovered e (.checkTriggers m p t) ∧ True))
  | .processFunding t => inferInstanceAs (Decidable
      (StepMeets FeesPaid PaymentCovered e (.processFunding t) ∧ True))
  | .cancelOrder .. | .cancelAllOrders .. | .cancelTrigger .. | .updateLeverage ..
  | .setMarginMode .. | .processLiquidations .. => .isTrue ⟨trivial, trivial⟩

/-! ### Agreement along runs -/

theorem onUnified_some {u : UnifiedState} {x : Option UnifiedState}
    {f : UnifiedState → Exec UnifiedState} (h : onUnified x f = .ok (some u)) :
    ∃ u₀, x = some u₀ ∧ f u₀ = .ok u := by
  rcases onUnified_eq_ok h with ⟨-, hn⟩ | ⟨u₀, u', hx, hs, hf⟩
  · cases hn
  · obtain rfl := Option.some.inj hs
    exact ⟨u₀, hx, hf⟩

/-- **Acts.** Agreement survives every act whose debits are covered. -/
theorem balancesAgree_keeps : Keeps FeesPaid PaymentCovered BalancesAgree where
  books h hsame a u hu b hb := by
    rw [hsame.unifiedState] at hu
    rw [balanceOf_congr hsame.accounts] at hb
    exact h a u hu b hb
  sync {e} c h a u hu b hb := by
    rw [syncAccount_unified] at hu
    rw [syncAccount_balance hu] at hb
    split at hb
    · rename_i hca
      rw [← Option.some.inj hb, hca]
    · exact h a u hu b hb
  openPosition c m h a u hu b hb := by
    rw [balanceOf_congr (by
      obtain ⟨_, hp⟩ := getOrCreatePosition_only (s := _) (a := c) (m := m)
      rw [hp])] at hb
    exact h a u hu b hb
  fill {e e' f₀ f config} h _ hpaid happly a u hu b hb := by
    have hun := applyFill_unified happly
    rw [hu] at hun
    obtain ⟨u₀, hu₀, hcharge⟩ := onUnified_some hun
    unfold FeesPaid at hpaid
    rw [hu₀] at hpaid
    rw [applyFill_balance happly] at hb
    obtain ⟨b₀, hb₀, rfl⟩ := Option.map_eq_some_iff.mp hb
    rw [h a u₀ hu₀ b₀ hb₀, chargeUnified_core hpaid hcharge a]
    exact (add_assoc _ _ _).symm
  settleMarket {e e' t m rates rates'} h hs a u hu b hb := by
    rcases settleMarket_cases hs with ⟨-, rfl⟩ | ⟨market, rate, s, -, -, hm, -, rfl⟩
    · exact h a u hu b hb
    · obtain ⟨_, rfl⟩ := modifyMarket_only hm
      exact h a u hu b hb
  settleAccount {e e' m rate acc t c} h hpay hs a u hu b hb := by
    rcases settleAccount_cases hs with
      ⟨rfl, -⟩ | ⟨p, payment, p', hp, hopen, hsettle, -, hbal, hside⟩
    · exact h a u hu b hb
    · rw [hbal] at hb
      obtain ⟨b₀, hb₀, rfl⟩ := Option.map_eq_some_iff.mp hb
      rcases hside with ⟨hzero, hsame⟩ | ⟨paymentAbs, -, habs, hun⟩
      · rw [hsame] at hu
        rw [h a u hu b₀ hb₀, hzero]
        simp
      · rw [hu] at hun
        obtain ⟨u₀, hu₀, hmove⟩ := onUnified_some hun
        unfold PaymentCovered at hpay
        rw [hu₀, hp] at hpay
        rw [h a u₀ hu₀ b₀ hb₀, payUnified_core habs
          (fun hpos => hpay hopen _ hsettle hpos _ habs) hmove a]
  liquidate h hs a u hu b hb := by
    obtain ⟨_, _, _, _, _, rfl⟩ := liquidate_only hs
    exact h a u hu b hb

/-- **Step lemma.** -/
theorem step_balancesAgree {e e' : Engine} {op : Op} (h : BalancesAgree e)
    (hsafe : BothSides e op) (hstep : step op e = .ok e') : BalancesAgree e' := by
  refine step_induction balancesAgree_keeps h hsafe.1 (fun hext => ?_) hstep
  cases op with
  | deposit c n =>
    obtain ⟨s, -, rfl⟩ := onState_eq_ok (f := (·.deposit c n)) hstep
    intro a u hu
    have hnone : e.unifiedState.isNone = true := hsafe.2
    rw [show e.unifiedState = some u from hu] at hnone
    cases hnone
  | withdraw c n =>
    obtain ⟨⟨r, s⟩, -, hstep⟩ := bind_inv hstep
    obtain rfl := pure_inv hstep
    intro a u hu
    have hnone : e.unifiedState.isNone = true := hsafe.2
    rw [show e.unifiedState = some u from hu] at hnone
    cases hnone
  | setUnified u' =>
    obtain rfl := pure_inv hstep
    intro a u hu b hb
    obtain ⟨u₀, hu₀, rfl⟩ := Option.map_eq_some_iff.mp hu
    have hkept : ViewsKept e u' := hsafe.2
    unfold ViewsKept at hkept
    rw [hu₀] at hkept
    obtain ⟨acc, hacc, -⟩ := Option.map_eq_some_iff.mp hb
    rw [h a u₀ hu₀ b hb]
    exact (hkept (a, acc) (FinMap.mem_toList.mpr hacc)).symm
  | _ => exact hext.elim

/-- The balance that the margin check of a placement reads is the core view, in any
engine. -/
theorem openAccount_agrees (e : Engine) (a : AccountAddress) (m : MarketId) :
    (e.openAccount a m).AgreesAt a := by
  intro u hu b hb
  have hu' : (e.syncAccount a).unifiedState = some u := hu
  have hb' : balanceOf (e.syncAccount a).state a = some b := by
    rw [← hb]
    refine (balanceOf_congr ?_ a).symm
    obtain ⟨_, hp⟩ := getOrCreatePosition_only (s := (e.syncAccount a).state) (a := a) (m := m)
    show ((e.syncAccount a).state.getOrCreatePosition a m).accounts = _
    rw [hp]
  rw [syncAccount_unified] at hu'
  rw [syncAccount_balance hu', if_pos rfl] at hb'
  exact (Option.some.inj hb').symm

theorem Fresh.no_accounts {e : Engine} (h : Fresh e) : e.state.accounts = ∅ :=
  h.rule (P := fun s => s.accounts = ∅) rfl fun _ _ _ _ ih => ih

/-- **Run theorem.** Along every run that debits both copies or neither, the engine's balances are
the core views; and whatever the run, the balance a margin check reads is. Every operation books
one amount on both sides, unless the view refuses a debit, and a check copies the view first. -/
theorem balances_agree_of_covered_run {e : Engine} (h : ReachableWith BothSides e) :
    BalancesAgree e ∧ ∀ (e' : Engine) a m, (e'.openAccount a m).AgreesAt a := by
  refine ⟨h.induction (fun e hf => ?_) fun _ _ _ hs hok hstep => step_balancesAgree hs hok hstep,
    openAccount_agrees⟩
  intro a u _ b hb
  unfold balanceOf getAccount at hb
  rw [hf.no_accounts, FinMap.get_empty] at hb
  cases hb

/-! ### Two runs -/

/-- USDC in the core views of accounts 1 and 2. -/
def twoFunded : UnifiedState :=
  ⟨((∅ : FinMap (PairKey AccountAddress TokenIndex) UnifiedBalance).insert ⟨1, 0⟩
    (.new ⟨10000000000, 6⟩)).insert ⟨2, 0⟩ (.new ⟨1000000000000, 6⟩)⟩

/-- A trade and a funding settlement, both sides debited each time. -/
theorem balances_agree_after_funding : ∃ (e : Engine) (u : UnifiedState),
    ReachableWith BothSides e ∧ e.unifiedState = some u ∧
    balanceOf e.state 1 = some 9993225000 ∧ u.coreRaw 1 0 = 9993225000 := by
  obtain ⟨e, he, htest⟩ := exists_of_test (x := btcChecked BothSides (some twoFunded) [
      .placeOrder 2 (limitOrder .sell .gtc 7000000000000 10000000) 5,
      .placeOrder 1 (limitOrder .buy .gtc 7000000000000 10000000) 6,
      .processFunding 28800000])
    (p := fun e => decide (balanceOf e.state 1 = some 9993225000 ∧
      e.unifiedState.isSome = true)) (by decide +kernel)
  obtain ⟨hbal, hsome⟩ := of_decide_eq_true htest
  obtain ⟨u, hu⟩ := Option.isSome_iff_exists.mp hsome
  have hreach := btcChecked_reachableWith he
  refine ⟨e, u, hreach, hu, hbal, ?_⟩
  exact ((balances_agree_of_covered_run hreach).1 1 u hu _ hbal).symm

/-- Account 1 buys 0.1 BTC at 70000 and moves an amount from its core view to its EVM view. -/
def viewTransferRun (amount : Int) : Exec (Engine × UnifiedState) := do
  let e ← btcRun (some twoFunded) [
    .placeOrder 2 (limitOrder .sell .gtc 7000000000000 10000000) 5,
    .placeOrder 1 (limitOrder .buy .gtc 7000000000000 10000000) 6]
  match e.unifiedState with
  | none => .error .panic
  | some u =>
    let (_, u) ← u.transferToEvmView 1 0 ⟨amount, 6⟩
    let e ← step (.setUnified u) e
    return (e, u)

theorem viewTransferRun_eq_ok {amount : Int} {e : Engine} {u : UnifiedState}
    (h : viewTransferRun amount = .ok (e, u)) : Reachable e ∧ e.unifiedState = some u := by
  obtain ⟨e₁, h1, h⟩ := bind_inv h
  split at h
  · cases h
  · rename_i u₁ hu₁
    obtain ⟨⟨r, u₂⟩, -, h⟩ := bind_inv h
    obtain ⟨e₂, h2, h⟩ := bind_inv h
    obtain ⟨rfl, rfl⟩ := pair_inv h
    obtain ⟨e₀, h0, hr⟩ := btcRun_reachable h1
    refine ⟨⟨e₀, h0, .tail _ hr trivial h2⟩, ?_⟩
    obtain rfl := pure_inv h2
    dsimp only
    rw [hu₁]
    rfl

/-- After a view transfer the liquidation pass reads a balance that has left the core
view: 9996.5 USDC instead of 6.5, behind a position of 7000. -/
theorem liquidation_reads_stale_balance : ∃ (e : Engine) (u : UnifiedState), Reachable e ∧
    e.unifiedState = some u ∧ balanceOf e.state 1 = some 9996500000 ∧ u.coreRaw 1 0 = 6500000 ∧
    findUnderwaterAccounts .sorted e = .ok [] ∧ ¬ BalancesAgree e := by
  obtain ⟨⟨e, u⟩, hrun, htest⟩ := exists_of_test (x := viewTransferRun 9990000000)
    (p := fun x => decide (balanceOf x.1.state 1 = some 9996500000 ∧
      x.2.coreRaw 1 0 = 6500000 ∧
      findUnderwaterAccounts .sorted x.1 = (.ok [] : Exec _))) (by decide +kernel)
  obtain ⟨hbal, hcore, hfound⟩ := of_decide_eq_true htest
  obtain ⟨hreach, hu⟩ := viewTransferRun_eq_ok hrun
  refine ⟨e, u, hreach, hu, hbal, hcore, hfound, fun hagree => ?_⟩
  have := hagree 1 u hu _ hbal
  rw [hcore] at this
  exact absurd this (by decide)

end Engine

end Hypercore
