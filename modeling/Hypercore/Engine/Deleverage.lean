import Hypercore.Engine.Positions
/-!
# Hypercore.Engine.Deleverage

What auto-deleverage closes.
-/

namespace Hypercore

open Exec Int128 Position

namespace Engine

open EngineState

/-- Notional of a position at a price, in micro-USDC. -/
def usdcNotional (p : Position) (price : Decimal) : Int :=
  toUsdc ((|p.size.value| * price.value).tdiv (10 ^ price.decimals))

/-- Raw size that is closed of a position at a price to cover a deficit. -/
def adlSize (p : Position) (price : Decimal) (deficit : Int) : Int :=
  let n := usdcNotional p price
  if deficit ≤ 0 ∨ p.size.value = 0 ∨ n = 0 then 0
  else (|p.size.value| * ((min deficit n * 10 ^ 6).tdiv n * 10 ^ 2)).tdiv (10 ^ 8)

section Deleverage

variable {s s' : EngineState} {e e' : Engine} {m : MarketId} {price d d' : Decimal}
  {c : AccountAddress × Decimal}

/-- **Inversion.** A candidate is passed over, or part of its position is closed. -/
theorem deleverage_cases (hwf : PositionsWF s) (hd : d.decimals = 6)
    (h : deleverage m price (s, d) c = .ok (s', d')) :
    (s' = s ∧ d' = d ∧ ∀ p, s.getPosition c.1 m = some p → adlSize p price d.value = 0) ∨
    ∃ p p', s.getPosition c.1 m = some p ∧ adlSize p price d.value ≠ 0 ∧
      p.applyFill ⟨adlSize p price d.value, 8⟩ price p.isShort = .ok p' ∧
      s' = s.setPosition c.1 m p' ∧
      d' = ⟨d.value - min d.value (usdcNotional p price), 6⟩ := by
  have hpassed : ∀ {x : EngineState × Decimal}, x = (s', d') → x = (s, d) →
      (∀ p, s.getPosition c.1 m = some p → adlSize p price d.value = 0) →
      s' = s ∧ d' = d ∧ ∀ p, s.getPosition c.1 m = some p → adlSize p price d.value = 0 := by
    intro x h1 h2 h3
    obtain ⟨rfl, rfl⟩ := Prod.mk.inj (h1.symm.trans h2)
    exact ⟨rfl, rfl, h3⟩
  unfold deleverage at h
  dsimp only at h
  split at h
  · rename_i hdef
    refine .inl (hpassed (pure_inv h) rfl fun p hp => if_pos (.inl ?_))
    simpa using hdef
  · rename_i hdef
    split at h
    · rename_i hnone
      refine .inl (hpassed (pure_inv h) rfl fun p hp => ?_)
      rw [hp] at hnone
      cases hnone
    · rename_i pos hpos
      have hp := hwf _ _ _ hpos
      have hsame : ∀ {P : Position → Prop}, P pos → ∀ p, s.getPosition c.1 m = some p → P p := by
        intro P hP p hp
        obtain rfl := Option.some.inj (hpos.symm.trans hp)
        exact hP
      split at h
      · rename_i hempty
        exact .inl (hpassed (pure_inv h) rfl
          (hsame (if_pos (.inr (.inl (Decimal.isZero_iff.mp hempty))))))
      · rename_i hempty
        obtain ⟨n, hn, h⟩ := bind_inv h
        obtain ⟨nu, hnu, h⟩ := bind_inv h
        obtain ⟨abs₁, habs₁, hn⟩ := bind_inv hn
        have hn' := (Decimal.mul_eq_ok.mp hn).2.2
        rw [(Decimal.abs_eq_ok.mp habs₁).2, hp.size] at hn'
        have hnuValue : nu.value = usdcNotional pos price := by
          rw [toDecimals_usdc (by rw [hn']) hnu, hn']
          rfl
        have hnuScale := Decimal.toDecimals_decimals hnu
        split at h
        · rename_i hzero
          rw [Decimal.isZero_iff, hnuValue] at hzero
          exact .inl (hpassed (pure_inv h) rfl (hsame (if_pos (.inr (.inr hzero)))))
        · rename_i hzero
          obtain ⟨ratio, hratio, h⟩ := bind_inv h
          obtain ⟨abs, habs, h⟩ := bind_inv h
          obtain ⟨r, hr, h⟩ := bind_inv h
          obtain ⟨size, hsize, h⟩ := bind_inv h
          have hmin : d.min nu = ⟨min d.value (usdcNotional pos price), 6⟩ := by
            unfold Decimal.min
            rw [hnuValue, min_def]
            split
            · rw [← hd]
            · rw [← hnuValue, ← hnuScale]
          have hadl : size = ⟨adlSize pos price d.value, 8⟩ := by
            have hratio' := (Decimal.div_eq_ok.mp hratio).2.2.2.2
            rw [hmin, hnuValue, hnuScale] at hratio'
            have habs' := (Decimal.abs_eq_ok.mp habs).2
            rw [hp.size] at habs'
            rw [habs', hratio'] at hr
            have hr' := ((Decimal.toDecimals_up (by decide : (6 : Nat) < 8)).mp hr).2.2
            rw [(Decimal.mul_eq_ok.mp hsize).2.2, habs', hr']
            unfold adlSize
            dsimp only
            rw [if_neg]
            rw [Bool.not_eq_true', Decimal.isPositive_eq_false] at hdef
            unfold isEmpty at hempty
            rw [Decimal.isZero_iff] at hempty
            rw [Decimal.isZero_iff, hnuValue] at hzero
            rintro (h | h | h)
            · exact hdef h
            · exact hempty h
            · exact hzero h
          split at h
          · rename_i hnone
            rw [hadl, Decimal.isZero_iff] at hnone
            exact .inl (hpassed (pure_inv h) rfl (hsame hnone))
          · rename_i hsome
            rw [hadl, Decimal.isZero_iff] at hsome
            obtain ⟨s₁, h1, h⟩ := bind_inv h
            obtain ⟨d₁, h2, h⟩ := bind_inv h
            obtain ⟨rfl, rfl⟩ := pair_inv h
            rcases modifyPosition_eq_ok h1 with ⟨hnone, -⟩ | ⟨q, p', hq, hfill, rfl⟩
            · rw [hpos] at hnone
              cases hnone
            · obtain rfl := Option.some.inj (hpos.symm.trans hq)
              rw [hadl] at hfill
              refine .inr ⟨pos, p', hpos, hsome, hfill, rfl, ?_⟩
              rw [(Decimal.sub_eq_ok.mp h2).2, hmin, hd]

/-- Candidate after candidate, what every passing over and every closing keeps. -/
theorem triggerAdl_induction {ord : HashOrder} {P : EngineState → Int → Prop}
    (hwf : PositionsWF e.state) (hd : d.decimals = 6) (h : triggerAdl ord e m d price = .ok e')
    (h0 : P e.state d.value)
    (hclose : ∀ s d b p p', PositionsWF s → P s d → s.getPosition b m = some p →
      adlSize p price d ≠ 0 → p.applyFill ⟨adlSize p price d, 8⟩ price p.isShort = .ok p' →
      P (s.setPosition b m p') (d - min d (usdcNotional p price))) :
    ∃ d', P e'.state d' := by
  obtain ⟨cs, -, h⟩ := bind_inv h
  obtain ⟨⟨s', d'⟩, hfold, h⟩ := bind_inv h
  obtain rfl := pure_inv h
  have hall := foldlM_induction
    (P := fun x : EngineState × Decimal => PositionsWF x.1 ∧ x.2.decimals = 6 ∧ P x.1 x.2.value)
    hfold ⟨hwf, hd, h0⟩ fun c _ x y hx hs => by
      obtain ⟨hwf, hd, hP⟩ := hx
      rcases deleverage_cases hwf hd hs with ⟨h1, h2, -⟩ | ⟨p, p', hp, hne, hfill, h1, h2⟩
      · rw [h1, h2]
        exact ⟨hwf, hd, hP⟩
      · rw [h1, h2]
        have hwrite : PosWrites x.1 (x.1.setPosition c.1 m p') :=
          .single (.filled c.1 m p p' _ _ _ hp rfl hfill rfl)
        exact ⟨hwrite.wf hwf, rfl, hclose _ _ _ _ _ hwf hP hp hne hfill⟩
  exact ⟨_, hall.2.2⟩

/-- **A liquidation** settles its residual, closes its size and drops the triggers of the
position. -/
theorem applyLiquidation_steps {ord : HashOrder} {a : AccountAddress} {p : Position}
    {size price : Decimal} (hp : e.state.getPosition a m = some p)
    (h : applyLiquidation ord e a m size price = .ok e') :
    ∃ e₁ s₂, (e₁ = e ∨ ∃ b, settleResidual ord e m b size price p.isShort = .ok e₁) ∧
      e₁.state.modifyPosition a m (fun p' => p'.applyFill size price p.isShort) = .ok s₂ ∧
      e' = { e₁ with state := s₂.cancelTriggerOrdersForPosition a m } := by
  unfold applyLiquidation at h
  simp only [hp] at h
  obtain ⟨b, -, h⟩ := bind_inv h
  obtain ⟨e₁, h1, h⟩ := bind_inv h
  obtain ⟨s₂, h2, h⟩ := bind_inv h
  obtain rfl := pure_inv h
  refine ⟨e₁, s₂, ?_, h2, rfl⟩
  cases b with
  | none => exact .inl (pure_inv h1).symm
  | some b => exact .inr ⟨b, h1⟩

/-- A liquidation and the auto-deleverage it triggers stay in their market. -/
theorem applyLiquidation_other {ord : HashOrder} {a b : AccountAddress} {k : MarketId}
    {size price : Decimal} (hwf : PositionsWF e.state) (hk : k ≠ m)
    (h : applyLiquidation ord e a m size price = .ok e') :
    e'.state.getPosition b k = e.state.getPosition b k := by
  cases hp : e.state.getPosition a m with
  | none =>
    unfold applyLiquidation at h
    simp only [hp] at h
    obtain rfl := pure_inv h
    rfl
  | some p =>
    obtain ⟨e₁, s₂, hsettle, hfill, rfl⟩ := applyLiquidation_steps hp h
    have hsettled : e₁.state.getPosition b k = e.state.getPosition b k := by
      rcases hsettle with rfl | ⟨b', hsettle⟩
      · rfl
      · obtain ⟨r, -, rfl | ⟨-, -, hadl⟩⟩ := settleResidual_cases hsettle
        · rfl
        · obtain ⟨-, hkept⟩ := triggerAdl_induction
            (P := fun s _ => s.getPosition b k = e.state.getPosition b k) hwf rfl hadl rfl
            fun s d c q q' _ hs _ _ _ => by
              rw [getPosition_setPosition, if_neg fun hc => hk hc.2.symm, hs]
          exact hkept
    have hcancelled : (s₂.cancelTriggerOrdersForPosition a m).getPosition b k =
        s₂.getPosition b k := by
      obtain ⟨_, _, _, honly⟩ := cancelTriggerOrdersForPosition_only (s := s₂) (a := a) (m := m)
      rw [honly]
      rfl
    have hclosed : s₂.getPosition b k = e₁.state.getPosition b k := by
      rcases modifyPosition_eq_ok hfill with ⟨-, rfl⟩ | ⟨q, q', -, -, rfl⟩
      · rfl
      · rw [getPosition_setPosition, if_neg fun hc => hk hc.2.symm]
    exact hcancelled.trans (hclosed.trans hsettled)

end Deleverage

end Engine

end Hypercore
