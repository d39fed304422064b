import Hypercore.Engine.FundingValue
/-!
# Hypercore.Engine.FundingAttribution

What an account is charged for funding in a market, along a run.

Funding is settled against an index stored in the position. Fills never write it, and a
flat position is passed by when its market settles, so a position that opens while its index
is behind the market's accumulator is later charged for growth it was not exposed to.
Where every fill that opens the position finds its index
at the accumulator, the index of an open position is always the accumulator
(`IndexLevel`), and every settlement charges size times growth, truncated.
-/

namespace Hypercore

open Exec Int128

namespace Engine

open EngineState

/-! ### Accumulators and indices -/

section Kept

variable {s s' s'' : EngineState} {e e' : Engine} {a b : AccountAddress} {m k : MarketId}

/-- Every market has the funding accumulator it had. -/
def AccumulatorsKept (s s' : EngineState) : Prop :=
  ∀ m, (s'.getMarket m).map (·.state.fundingAccumulator) =
    (s.getMarket m).map (·.state.fundingAccumulator)

theorem AccumulatorsKept.trans (h : AccumulatorsKept s s') (h' : AccumulatorsKept s' s'') :
    AccumulatorsKept s s'' := fun m => (h' m).trans (h m)

theorem AccumulatorsKept.of_same (h : s'.markets = s.markets) : AccumulatorsKept s s' := by
  intro m
  unfold getMarket
  rw [h]

theorem AccumulatorsKept.of_modifyPosition {f : Position → Exec Position}
    (h : s.modifyPosition a m f = .ok s') : AccumulatorsKept s s' := by
  obtain ⟨_, rfl⟩ := modifyPosition_only h
  exact .of_same rfl

theorem AccumulatorsKept.of_modifyAccount {f : AccountState → Exec AccountState}
    (h : s.modifyAccount a f = .ok s') : AccumulatorsKept s s' := by
  obtain ⟨_, rfl⟩ := modifyAccount_only h
  exact .of_same rfl

theorem AccumulatorsKept.of_modifyMarket {f : MarketState → Exec MarketState}
    (hf : ∀ st st', f st = .ok st' → st'.fundingAccumulator = st.fundingAccumulator)
    (h : s.modifyMarket m f = .ok s') : AccumulatorsKept s s' := by
  rcases modifyMarket_eq_ok h with ⟨-, rfl⟩ | ⟨mk, st, hm, hst, rfl⟩
  · exact fun _ => rfl
  · intro k
    unfold getMarket at hm ⊢
    rw [FinMap.get_insert]
    split
    · rename_i hk
      rw [← hk, hm]
      exact congrArg some (hf _ _ hst)
    · rfl

/-- A position that is there was there, with the index it has; one that was flat is
untouched. -/
def IndicesKept (s s' : EngineState) : Prop :=
  ∀ a m p', s'.getPosition a m = some p' → ∃ p, s.getPosition a m = some p ∧
    p'.lastFundingIndex = p.lastFundingIndex ∧ (p.isEmpty = true → p' = p)

theorem IndicesKept.trans (h : IndicesKept s s') (h' : IndicesKept s' s'') :
    IndicesKept s s'' := by
  intro a m p'' hp''
  obtain ⟨p', hp', hidx', hflat'⟩ := h' a m p'' hp''
  obtain ⟨p, hp, hidx, hflat⟩ := h a m p' hp'
  refine ⟨p, hp, hidx'.trans hidx, fun hempty => ?_⟩
  obtain rfl := hflat hempty
  exact hflat' hempty

theorem IndicesKept.of_same (h : s'.positions = s.positions) : IndicesKept s s' := by
  intro a m p hp
  unfold getPosition at hp ⊢
  rw [h] at hp
  exact ⟨p, hp, rfl, fun _ => rfl⟩

variable {size price : Decimal} {isBuy : Bool} {f : Fill}
variable {p' : Position} {ord : HashOrder}

theorem modifyPosition_index
    (h : s.modifyPosition b k (fun p => p.applyFill size price isBuy) = .ok s')
    (hp' : s'.getPosition a m = some p') :
    ∃ p, s.getPosition a m = some p ∧ p'.lastFundingIndex = p.lastFundingIndex ∧
      ((b = a ∧ k = m) ∨ p' = p) := by
  rcases modifyPosition_eq_ok h with ⟨-, rfl⟩ | ⟨q, q', hq, hfill, rfl⟩
  · exact ⟨p', hp', rfl, .inr rfl⟩
  · rw [getPosition_setPosition] at hp'
    split at hp'
    · rename_i hk
      obtain ⟨rfl, rfl⟩ := hk
      obtain rfl := Option.some.inj hp'
      exact ⟨q, hq, Position.applyFill_index hfill, .inl ⟨rfl, rfl⟩⟩
    · exact ⟨p', hp', rfl, .inr rfl⟩

/-- A fill of an open position. -/
theorem IndicesKept.of_fill {p : Position} (hp : s.getPosition b k = some p)
    (hopen : p.isEmpty = false)
    (h : s.modifyPosition b k (fun p => p.applyFill size price isBuy) = .ok s') :
    IndicesKept s s' := by
  intro a m p' hp'
  obtain ⟨q, hq, hidx, hsame⟩ := modifyPosition_index h hp'
  refine ⟨q, hq, hidx, fun hempty => ?_⟩
  rcases hsame with ⟨rfl, rfl⟩ | heq
  · obtain rfl := Option.some.inj (hp.symm.trans hq)
    rw [hopen] at hempty
    cases hempty
  · exact heq

/-- What a fill does to a position of one of its parties, or of anyone else. -/
theorem applyFill_index (h : e.applyFill f = .ok e') (hp' : e'.state.getPosition a m = some p') :
    ∃ p, e.state.getPosition a m = some p ∧ p'.lastFundingIndex = p.lastFundingIndex ∧
      ((f.marketId = m ∧ (f.maker = a ∨ f.taker = a)) ∨ p' = p) := by
  obtain ⟨s₁, s₂, s₃, s₄, u, h1, h2, h3, h4, rfl⟩ := applyFill_steps h
  obtain ⟨t₁, t₂, _, _, g1, g2, h1⟩ := fillPositions_steps h1
  have hpos : (fillRecord s₄ f).positions = t₂.positions := by
    obtain ⟨_, rfl⟩ := modifyMarket_only h1
    obtain ⟨_, rfl⟩ := modifyAccount_only h2
    obtain ⟨_, rfl⟩ := modifyAccount_only h3
    obtain ⟨_, rfl⟩ := fillMarket_only h4
    exact (fillRecord_positions _ f).1
  have hp₂ : t₂.getPosition a m = some p' := by
    rw [← hp']
    unfold getPosition
    rw [hpos]
  obtain ⟨p₁, hp₁, hidx₁, hsame₁⟩ := modifyPosition_index g2 hp₂
  obtain ⟨p, hp, hidx, hsame⟩ := modifyPosition_index g1 hp₁
  refine ⟨p, hp, hidx₁.trans hidx, ?_⟩
  rcases hsame₁ with ⟨ha, hm⟩ | rfl
  · exact .inl ⟨hm, .inr ha⟩
  · rcases hsame with ⟨ha, hm⟩ | rfl
    · exact .inl ⟨hm, .inl ha⟩
    · exact .inr rfl

theorem fillMarket_accumulators (h : fillMarket s f = .ok s') :
    AccumulatorsKept s s' := by
  obtain ⟨s₁, h1, h⟩ := bind_inv h
  refine (AccumulatorsKept.of_modifyMarket (fun st st' hst => ?_) h1).trans
    (.of_modifyMarket (fun st st' hst => ?_) h)
  · obtain rfl := pure_inv hst
    rfl
  · split at hst
    · obtain rfl := pure_inv hst
      rfl
    · obtain ⟨_, -, hst⟩ := bind_inv hst
      obtain ⟨_, -, hst⟩ := bind_inv hst
      obtain ⟨_, -, hst⟩ := bind_inv hst
      obtain ⟨_, -, hst⟩ := bind_inv hst
      obtain rfl := pure_inv hst
      rfl

theorem applyFill_accumulators (h : e.applyFill f = .ok e') :
    AccumulatorsKept e.state e'.state := by
  obtain ⟨s₁, s₂, s₃, s₄, u, h1, h2, h3, h4, rfl⟩ := applyFill_steps h
  obtain ⟨t₁, t₂, _, _, g1, g2, h1⟩ := fillPositions_steps h1
  have hinterest : AccumulatorsKept t₂ s₁ := by
    refine .of_modifyMarket (fun st st' hst => ?_) h1
    obtain ⟨_, -, hst⟩ := bind_inv hst
    obtain ⟨_, -, hst⟩ := bind_inv hst
    obtain rfl := pure_inv hst
    rfl
  have hpositions : AccumulatorsKept e.state s₁ :=
    ((AccumulatorsKept.of_modifyPosition g1).trans (.of_modifyPosition g2)).trans hinterest
  have haccounts : AccumulatorsKept s₁ s₃ :=
    (AccumulatorsKept.of_modifyAccount h2).trans (.of_modifyAccount h3)
  have hrecord : AccumulatorsKept s₄ (fillRecord s₄ f) := by
    obtain ⟨_, _, _, _, _, h⟩ := fillRecord_writes s₄ f
    exact .of_same (by rw [h])
  exact (hpositions.trans haccounts).trans ((fillMarket_accumulators h4).trans hrecord)

theorem deleverage_indices {d d' : Decimal} {c : AccountAddress × Decimal}
    (h : deleverage m price (s, d) c = .ok (s', d')) : IndicesKept s s' := by
  rcases deleverage_inv h with rfl | ⟨pos, abs, ratio, size, hpos, hopen, -, -, hfill⟩
  · exact .of_same rfl
  · exact .of_fill hpos hopen hfill

theorem settleResidual_indices {x : Decimal}
    (h : settleResidual ord e m x size price isBuy = .ok e') :
    IndicesKept e.state e'.state := by
  obtain ⟨r, -, rfl | ⟨-, -, hadl⟩⟩ := settleResidual_cases h
  · exact .of_same rfl
  · obtain ⟨cs, -, hadl⟩ := bind_inv hadl
    obtain ⟨⟨s₂, d₂⟩, h2, hadl⟩ := bind_inv hadl
    obtain rfl := pure_inv hadl
    exact foldlM_rel (R := fun x y => IndicesKept x.1 y.1) h2 (fun _ => .of_same rfl)
      (fun _ _ _ => .trans) fun _ _ _ _ h => deleverage_indices h

/-- A liquidation closes an open position; whatever auto-deleverage closes before it, flat
positions stay flat and no index moves. -/
theorem liquidate_indices {l l' : Liquidations} {pair : AccountAddress × MarketId}
    (h : liquidate ord (l, e) pair = .ok (l', e')) :
    IndicesKept e.state e'.state := by
  unfold liquidate at h
  dsimp only at h
  split at h
  · rename_i market p _ hp
    obtain ⟨r, hr, h⟩ := bind_inv h
    cases r with
    | none =>
      obtain ⟨-, rfl⟩ := pair_inv h
      exact .of_same rfl
    | some q =>
      obtain ⟨size, price⟩ := q
      obtain ⟨e₃, h3, h⟩ := bind_inv h
      obtain ⟨-, rfl⟩ := pair_inv h
      have hopen : p.isEmpty = false := by
        unfold LiquidationEngine.processLiquidation at hr
        split at hr
        · cases pure_inv hr
        · simp_all
      unfold applyLiquidation at h3
      dsimp only at h3
      rw [hp] at h3
      obtain ⟨x, -, h3⟩ := bind_inv h3
      obtain ⟨e₁, h1, h3⟩ := bind_inv h3
      obtain ⟨s₂, h2, h3⟩ := bind_inv h3
      obtain rfl := pure_inv h3
      have hresidual : IndicesKept e.state e₁.state := by
        cases x with
        | none =>
          obtain rfl := pure_inv h1
          exact .of_same rfl
        | some x => exact settleResidual_indices h1
      intro a k p'' hp''
      have htriggers : s₂.getPosition a k = some p'' := by
        obtain ⟨_, _, _, ht⟩ := cancelTriggerOrdersForPosition_only
          (s := s₂) (a := pair.1) (m := pair.2)
        rw [ht] at hp''
        exact hp''
      obtain ⟨p', hp', hidx', hsame⟩ := modifyPosition_index h2 htriggers
      obtain ⟨p₀, hp₀, hidx, hflat⟩ := hresidual a k p' hp'
      refine ⟨p₀, hp₀, hidx'.trans hidx, fun hempty => ?_⟩
      rcases hsame with ⟨rfl, rfl⟩ | rfl
      · obtain rfl := Option.some.inj (hp.symm.trans hp₀)
        rw [hopen] at hempty
        cases hempty
      · exact hflat hempty
  · obtain ⟨-, rfl⟩ := pair_inv h
    exact .of_same rfl

end Kept

/-! ### Level openings -/

/-- An open position of the account in the market has the accumulator as its index. -/
def IndexLevel (a : AccountAddress) (m : MarketId) (s : EngineState) : Prop :=
  ∀ p market, s.getPosition a m = some p → s.getMarket m = some market →
    p.isEmpty = false → p.lastFundingIndex = market.state.fundingAccumulator

/-- What makes the next settlement of the account in the market exact. -/
structure Attributable (a : AccountAddress) (m : MarketId) (e : Engine) : Prop where
  wf : PositionsWF e.state
  scale : ∀ market, e.state.getMarket m = some market →
    market.state.fundingAccumulator.decimals = 10
  level : IndexLevel a m e.state

/-- A fill of the account in the market that finds its position flat finds its index at
the accumulator. -/
def LevelOpening (a : AccountAddress) (m : MarketId) : FillCond := fun e f =>
  f.marketId = m → f.maker = a ∨ f.taker = a →
    match e.state.getPosition a m, e.state.getMarket m with
    | some p, some market =>
      p.isEmpty = true → p.lastFundingIndex = market.state.fundingAccumulator
    | _, _ => True

/-- Every fill that opens the account's position in the market finds it level. -/
def OpensLevel (a : AccountAddress) (m : MarketId) (e : Engine) (op : Op) : Prop :=
  StepMeets (LevelOpening a m) (fun _ _ _ _ => True) e op

instance (a : AccountAddress) (m : MarketId) (e : Engine) (f : Fill) :
    Decidable (LevelOpening a m e f) :=
  match hp : e.state.getPosition a m, hm : e.state.getMarket m with
  | some p, some market => decidable_of_iff (f.marketId = m → f.maker = a ∨ f.taker = a →
      p.isEmpty = true → p.lastFundingIndex = market.state.fundingAccumulator) (by
    unfold LevelOpening
    rw [hp, hm])
  | none, _ => .isTrue (by
    unfold LevelOpening
    rw [hp]
    exact fun _ _ => trivial)
  | some _, none => .isTrue (by
    unfold LevelOpening
    rw [hp, hm]
    exact fun _ _ => trivial)

instance (a : AccountAddress) (m : MarketId) (e : Engine) (op : Op) :
    Decidable (OpensLevel a m e op) := by
  unfold OpensLevel
  infer_instance

section Level

variable {s s' : EngineState} {e e' : Engine} {a b : AccountAddress} {m k : MarketId}
  {t : Timestamp}

theorem AccumulatorsKept.market {market : Market} (h : AccumulatorsKept s s')
    (hm : s'.getMarket m = some market) : ∃ market₀, s.getMarket m = some market₀ ∧
      market₀.state.fundingAccumulator = market.state.fundingAccumulator := by
  have hmap := (h m).symm
  rw [hm] at hmap
  exact Option.map_eq_some_iff.mp hmap

/-- **Frame.** Where accumulators and indices are kept, an account stays attributable. -/
theorem Attributable.of_kept (h : Attributable a m e) (hwf : PositionsWF e'.state)
    (hacc : AccumulatorsKept e.state e'.state) (hidx : IndicesKept e.state e'.state) :
    Attributable a m e' := by
  refine ⟨hwf, fun market hm => ?_, fun p' market hp' hm hopen => ?_⟩
  · obtain ⟨market₀, hm₀, heq⟩ := hacc.market hm
    rw [← heq]
    exact h.scale market₀ hm₀
  · obtain ⟨market₀, hm₀, heq⟩ := hacc.market hm
    obtain ⟨p, hp, hsame, hflat⟩ := hidx a m p' hp'
    have hopen₀ : p.isEmpty = false := by
      cases hempty : p.isEmpty with
      | false => rfl
      | true =>
        obtain rfl := hflat hempty
        exact hempty.symm.trans hopen
    rw [hsame, ← heq]
    exact h.level p market₀ hp hm₀ hopen₀

/-- **Acts of trading.** -/
theorem attributable_keeps (a : AccountAddress) (m : MarketId) :
    KeepsTrades (LevelOpening a m) (Attributable a m) where
  books {e e'} h hsame := h.of_kept (by
      unfold PositionsWF getPosition
      rw [hsame.positions]
      exact h.wf) (.of_same hsame.markets) (.of_same hsame.positions)
  sync {e} c h := by
    obtain ⟨_, hs⟩ := syncAccount_only e c
    rw [hs]
    exact h.of_kept h.wf (.of_same rfl) (.of_same rfl)
  openPosition {e} c k h := by
    have hpos : ∀ p, (e.state.getOrCreatePosition c k).getPosition a m = some p →
        p.isEmpty = false → e.state.getPosition a m = some p := by
      intro p hp hopen
      rw [getPosition_getOrCreatePosition] at hp
      split at hp
      · rename_i hk
        obtain ⟨rfl, rfl⟩ := hk
        cases hq : e.state.getPosition c k with
        | none =>
          rw [hq] at hp
          obtain rfl := Option.some.inj hp
          cases hopen
        | some q =>
          rw [hq] at hp
          exact hp
      · exact hp
    have hmarkets : AccumulatorsKept e.state (e.state.getOrCreatePosition c k) := by
      obtain ⟨_, hs⟩ := getOrCreatePosition_only (s := e.state) (a := c) (m := k)
      exact .of_same (by rw [hs])
    refine ⟨(PosWrites.of_opened e.state c k).wf h.wf, fun market hm => ?_,
      fun p market hp hm hopen => ?_⟩
    · obtain ⟨market₀, hm₀, heq⟩ := hmarkets.market hm
      rw [← heq]
      exact h.scale market₀ hm₀
    · obtain ⟨market₀, hm₀, heq⟩ := hmarkets.market hm
      rw [← heq]
      exact h.level p market₀ (hpos p hp hopen) hm₀ hopen
  fill {e e' f₀ f config} h _ hlevel happly := by
    refine ⟨(applyFill_posWrites happly).wf h.wf, fun market hm => ?_,
      fun p' market hp' hm hopen => ?_⟩
    · obtain ⟨market₀, hm₀, heq⟩ := (applyFill_accumulators happly).market hm
      rw [← heq]
      exact h.scale market₀ hm₀
    · obtain ⟨market₀, hm₀, heq⟩ := (applyFill_accumulators happly).market hm
      obtain ⟨p, hp, hsame, hparty⟩ := applyFill_index happly hp'
      rw [hsame, ← heq]
      rcases hparty with ⟨hfm, hparty⟩ | rfl
      · cases hempty : p.isEmpty with
        | false => exact h.level p market₀ hp hm₀ hempty
        | true =>
          have := hlevel hfm hparty
          rw [hp, hm₀] at this
          exact this hempty
      · exact h.level p' market₀ hp hm₀ hopen
  liquidate {e e' ord l l' pair} h hliq := by
    refine h.of_kept ((liquidate_posWrites h.wf hliq).wf h.wf) ?_ (liquidate_indices hliq)
    obtain ⟨_, _, _, _, _, rfl⟩ := liquidate_only hliq
    exact .of_same rfl

end Level

/-! ### A funding call -/

section Call

variable {e e' : Engine} {a b : AccountAddress} {m : MarketId} {rate acc : Decimal}
  {t : Timestamp}

/-- An account's position in a market is flat or has an index. -/
def SettledAt (s : EngineState) (m : MarketId) (acc : Decimal) (a : AccountAddress) : Prop :=
  ∀ p, s.getPosition a m = some p → p.isEmpty = false → p.lastFundingIndex = acc

theorem settleAccount_settled (h : settleAccount m rate acc t e b = .ok e') :
    (SettledAt e.state m acc a → SettledAt e'.state m acc a) ∧ SettledAt e'.state m acc b := by
  rcases settleAccount_cases h with ⟨rfl, hempty⟩ | ⟨p, payment, p', -, -, hsettle, hpos, -⟩
  · refine ⟨id, fun p hp hopen => ?_⟩
    rw [hempty p hp] at hopen
    cases hopen
  · have hidx : p'.lastFundingIndex = acc := by
      obtain ⟨_, -, hsettle⟩ := bind_inv hsettle
      obtain ⟨_, -, hsettle⟩ := bind_inv hsettle
      obtain ⟨_, -, hsettle⟩ := bind_inv hsettle
      obtain ⟨-, rfl⟩ := pair_inv hsettle
      rfl
    have hget : ∀ c, e'.state.getPosition c m =
        if b = c ∧ m = m then some p' else e.state.getPosition c m := by
      intro c
      rw [← getPosition_setPosition]
      unfold getPosition
      rw [hpos]
    refine ⟨fun hs q hq hopen => ?_, fun q hq _ => ?_⟩
    · rw [hget] at hq
      split at hq
      · obtain rfl := Option.some.inj hq
        exact hidx
      · exact hs q hq hopen
    · rw [hget, if_pos ⟨rfl, rfl⟩] at hq
      obtain rfl := Option.some.inj hq
      exact hidx

theorem mem_holders {s : EngineState} : a ∈ holders s m ↔
    ∃ p, s.getPosition a m = some p ∧ p.isEmpty = false := by
  unfold holders getPosition
  rw [List.mem_filterMap]
  constructor
  · rintro ⟨⟨b, ps⟩, hmem, hb⟩
    have hps := FinMap.mem_toList.mp hmem
    dsimp only at hb hps
    split at hb
    · rename_i p hp
      split at hb
      · cases hb
      · rename_i hopen
        obtain rfl := Option.some.inj hb
        refine ⟨p, ?_, by simpa using hopen⟩
        rw [hps]
        exact hp
    · cases hb
  · rintro ⟨p, hp, hopen⟩
    obtain ⟨ps, hps, hpm⟩ := Option.bind_eq_some_iff.mp hp
    refine ⟨(a, ps), FinMap.mem_toList.mpr hps, ?_⟩
    dsimp only
    rw [hpm]
    dsimp only
    rw [hopen]
    rfl

variable {mr : MarketId × Decimal} {market : Market}

/-- After a market's turn every open position of it has its accumulator as index. -/
theorem settleHolders_settled (hm : e.state.getMarket mr.1 = some market)
    (h : settleHolders t e mr = .ok e') (a : AccountAddress) :
    SettledAt e'.state mr.1 market.state.fundingAccumulator a := by
  rcases settleHolders_cases h with ⟨hnone, -⟩ | ⟨market', e₁, hm', hfold, rfl⟩
  · rw [hm] at hnone
    cases hnone
  · obtain rfl := Option.some.inj (hm.symm.trans hm')
    have hall : ∀ (as : List AccountAddress) {e e₁ : Engine},
        as.foldlM (settleAccount mr.1 mr.2 market.state.fundingAccumulator t) e = .ok e₁ →
        (a ∈ as ∨ SettledAt e.state mr.1 market.state.fundingAccumulator a) →
        SettledAt e₁.state mr.1 market.state.fundingAccumulator a := by
      intro as
      induction as with
      | nil =>
        intro e e₁ hfold hs
        obtain rfl := foldlM_nil_eq_ok.mp hfold
        exact hs.resolve_left List.not_mem_nil
      | cons b as ih =>
        intro e e₁ hfold hs
        obtain ⟨e₂, h2, hfold⟩ := foldlM_cons_eq_ok.mp hfold
        refine ih hfold ?_
        rcases hs with hmem | hs
        · rcases List.mem_cons.mp hmem with rfl | hmem
          · exact .inr (settleAccount_settled (a := a) h2).2
          · exact .inl hmem
        · exact .inr ((settleAccount_settled h2).1 hs)
    have hend : SettledAt e₁.state mr.1 market.state.fundingAccumulator a := by
      refine hall _ hfold ?_
      by_cases hmem : a ∈ holders e.state mr.1
      · exact .inl hmem
      · exact .inr fun p hp hopen => absurd (mem_holders.mpr ⟨p, hp, hopen⟩) hmem
    exact hend

theorem settleAccount_markets (h : settleAccount m rate acc t e b = .ok e') :
    e'.state.markets = e.state.markets := by
  obtain ⟨_, _, _, _, rfl⟩ := settleAccount_writes h
  rfl

theorem settleHolders_markets (h : settleHolders t e mr = .ok e') :
    e'.state.markets = e.state.markets := by
  rcases settleHolders_cases h with ⟨-, rfl⟩ | ⟨market, e₁, -, hfold, rfl⟩
  · rfl
  · have hkept : e₁.state.markets = e.state.markets :=
      foldlM_induction (P := fun x => x.state.markets = e.state.markets) hfold rfl
        fun _ _ _ _ hx hs => (settleAccount_markets hs).trans hx
    exact hkept

variable {rates : List (MarketId × Decimal)} {ms : List MarketId}

theorem settleRates_markets (h : rates.foldlM (settleHolders t) e = .ok e') :
    e'.state.markets = e.state.markets :=
  foldlM_induction (P := fun x => x.state.markets = e.state.markets) h rfl
    fun _ _ _ _ hx hs => (settleHolders_markets hs).trans hx

/-- Market by market, the turn of a market that is not the account's leaves it alone; after
the turn of its own market the account is settled, and stays so. -/
theorem settleRates_settled (hm : e.state.getMarket m = some market)
    (h : rates.foldlM (settleHolders t) e = .ok e')
    (hs : m ∈ rates.map (·.1) ∨ SettledAt e.state m market.state.fundingAccumulator a) :
    SettledAt e'.state m market.state.fundingAccumulator a := by
  induction rates generalizing e with
  | nil =>
    obtain rfl := foldlM_nil_eq_ok.mp h
    exact hs.resolve_left List.not_mem_nil
  | cons mr rates ih =>
    obtain ⟨e₁, h1, h⟩ := foldlM_cons_eq_ok.mp h
    have hm₁ : e₁.state.getMarket m = some market := by
      unfold getMarket at hm ⊢
      rwa [settleHolders_markets h1]
    refine ih hm₁ h ?_
    by_cases hk : mr.1 = m
    · subst hk
      exact .inr (settleHolders_settled hm h1 a)
    · rcases hs with hmem | hs
      · rcases List.mem_cons.mp hmem with rfl | hmem
        · exact absurd rfl hk
        · exact .inl hmem
      · refine .inr fun p hp hopen => ?_
        rw [settleHolders_others h1 hk] at hp
        exact hs p hp hopen

/-- A market whose rate is not settled is as it was. -/
theorem settleMarkets_unsettled (h : ms.foldlM (settleMarket t) ([], e) = .ok (rates, e'))
    (hm : m ∉ rates.map (·.1)) :
    e'.state.getMarket m = e.state.getMarket m := by
  refine foldlM_induction (P := fun x : List (MarketId × Decimal) × Engine =>
    m ∉ x.1.map (·.1) → x.2.state.getMarket m = e.state.getMarket m) h (fun _ => rfl) ?_ hm
  rintro k - ⟨rates₁, e₁⟩ ⟨rates₂, e₂⟩ hx hs hnot
  rcases settleMarket_cases hs with ⟨rfl, rfl⟩ | ⟨market, rate, s, -, -, hmod, rfl, rfl⟩
  · exact hx hnot
  · rw [List.map_append, List.mem_append, not_or] at hnot
    have hne : k ≠ m := by
      rintro rfl
      exact hnot.2 (by simp)
    rw [← hx hnot.1]
    rcases modifyMarket_eq_ok hmod with ⟨-, rfl⟩ | ⟨mk, st, -, -, rfl⟩
    · rfl
    · unfold getMarket
      rw [FinMap.get_insert, if_neg hne]

theorem settleMarkets_there (h : ms.foldlM (settleMarket t) ([], e) = .ok (rates, e'))
    (m : MarketId) :
    (e'.state.getMarket m).isSome ↔ (e.state.getMarket m).isSome := by
  refine foldlM_induction (P := fun x : List (MarketId × Decimal) × Engine =>
    (x.2.state.getMarket m).isSome ↔ (e.state.getMarket m).isSome) h .rfl ?_
  rintro k - ⟨rates₁, e₁⟩ ⟨rates₂, e₂⟩ hx hs
  rcases settleMarket_cases hs with ⟨-, rfl⟩ | ⟨_, rate, s, -, -, hmod, -, rfl⟩
  · exact hx
  · rcases modifyMarket_eq_ok hmod with ⟨-, rfl⟩ | ⟨mk, st, hmk, -, rfl⟩
    · exact hx
    · refine Iff.trans ?_ hx
      unfold getMarket at hmk ⊢
      rw [FinMap.get_insert]
      split
      · rename_i hk
        rw [← hk, hmk]
        rfl
      · rfl

theorem settleMarkets_scale (h : ms.foldlM (settleMarket t) ([], e) = .ok (rates, e'))
    (h0 : ∀ market, e.state.getMarket m = some market →
      market.state.fundingAccumulator.decimals = 10) :
    ∀ market, e'.state.getMarket m = some market →
      market.state.fundingAccumulator.decimals = 10 := by
  refine foldlM_induction (P := fun x : List (MarketId × Decimal) × Engine =>
    ∀ market, x.2.state.getMarket m = some market →
      market.state.fundingAccumulator.decimals = 10) h h0 ?_
  rintro k - ⟨rates₁, e₁⟩ ⟨rates₂, e₂⟩ hx hs market hm
  rcases settleMarket_cases hs with ⟨-, rfl⟩ | ⟨_, rate, s, -, -, hmod, -, rfl⟩
  · exact hx market hm
  · rcases modifyMarket_eq_ok hmod with ⟨-, rfl⟩ | ⟨mk, st, hmk, hst, rfl⟩
    · exact hx market hm
    · unfold getMarket at hm
      rw [FinMap.get_insert] at hm
      split at hm
      · rename_i hk
        obtain rfl := Option.some.inj hm
        obtain ⟨_, -, hst⟩ := bind_inv hst
        obtain ⟨_, -, hst⟩ := bind_inv hst
        obtain ⟨acc, hacc, hst⟩ := bind_inv hst
        obtain ⟨_, -, hst⟩ := bind_inv hst
        obtain ⟨_, -, hst⟩ := bind_inv hst
        obtain rfl := pure_inv hst
        dsimp only
        rw [(Decimal.add_eq_ok.mp hacc).2]
        exact hx mk (hk ▸ hmk)
      · exact hx market hm

theorem settleMarkets_balance (h : ms.foldlM (settleMarket t) ([], e) = .ok (rates, e'))
    (b : AccountAddress) :
    balanceOf e'.state b = balanceOf e.state b := by
  refine foldlM_induction (P := fun x : List (MarketId × Decimal) × Engine =>
    balanceOf x.2.state b = balanceOf e.state b) h rfl ?_
  rintro k - ⟨rates₁, e₁⟩ ⟨rates₂, e₂⟩ hx hs
  rcases settleMarket_cases hs with ⟨-, rfl⟩ | ⟨_, rate, s, -, -, hmod, -, rfl⟩
  · exact hx
  · obtain ⟨_, rfl⟩ := modifyMarket_only hmod
    exact hx

/-- **Step lemma for funding.** -/
theorem processFunding_attributable (h0 : Attributable a m e)
    (h : e.processFunding t = .ok (rates, e')) :
    Attributable a m e' := by
  have hwf := (processFunding_posWrites h).wf h0.wf
  obtain ⟨⟨rates₁, e₁⟩, h1, h⟩ := bind_inv h
  obtain ⟨e₂, h2, h⟩ := bind_inv h
  obtain ⟨-, rfl⟩ := pair_inv h
  have hscale := settleMarkets_scale h1 h0.scale
  have hget : e₂.state.getMarket m = e₁.state.getMarket m := by
    unfold getMarket
    rw [settleRates_markets h2]
  refine ⟨hwf, fun market hm => hscale market (hget ▸ hm), fun p market hp hm hopen => ?_⟩
  rw [hget] at hm
  refine settleRates_settled hm h2 ?_ p hp hopen
  by_cases hmem : m ∈ rates₁.map (·.1)
  · exact .inl hmem
  · refine .inr fun q hq hopen => ?_
    obtain ⟨-, -, -, hpos, -⟩ := settleMarkets_spec h1
    rw [settleMarkets_unsettled h1 hmem] at hm
    unfold getPosition at hq
    rw [hpos] at hq
    exact h0.level q market hq hm hopen

/-- What a call that settles `rates` charges an account in a market, raw. -/
def chargeOf (rates : List (MarketId × Decimal)) (s s' : EngineState) (a : AccountAddress)
    (m : MarketId) : Int :=
  match s'.getMarket m with
  | some market =>
    if m ∈ rates.map (·.1) then owed s m market.state.fundingAccumulator a else 0
  | none => 0

/-- How far the accumulator of a market has moved, raw. -/
def growth (s s' : EngineState) (m : MarketId) : Int :=
  match s.getMarket m, s'.getMarket m with
  | some market, some market' =>
    market'.state.fundingAccumulator.value - market.state.fundingAccumulator.value
  | _, _ => 0

/-- Whether a call that settles `rates` settles the account in the market. -/
def settles (rates : List (MarketId × Decimal)) (s : EngineState) (a : AccountAddress)
    (m : MarketId) : Int :=
  if m ∈ rates.map (·.1) ∧ s.sizeAt a m ≠ 0 then 1 else 0

theorem settles_nonneg (rates : List (MarketId × Decimal)) (s : EngineState)
    (a : AccountAddress) (m : MarketId) : 0 ≤ settles rates s a m := by
  unfold settles
  split <;> omega

/-- **One call.** It charges an attributable account its size times the growth of the
accumulator, to within one micro-USDC if it settles the account and exactly otherwise. -/
theorem chargeOf_near (h0 : Attributable a m e) (h : e.processFunding t = .ok (rates, e')) :
    |10 ^ 12 * chargeOf rates e.state e'.state a m -
      e.state.sizeAt a m * growth e.state e'.state m| ≤
      10 ^ 12 * settles rates e.state a m := by
  have hend := processFunding_attributable h0 h
  obtain ⟨⟨rates₁, e₁⟩, h1, h⟩ := bind_inv h
  obtain ⟨e₂, h2, h⟩ := bind_inv h
  obtain ⟨rfl, rfl⟩ := pair_inv h
  have hget : e₂.state.getMarket m = e₁.state.getMarket m := by
    unfold getMarket
    rw [settleRates_markets h2]
  have hthere := settleMarkets_there h1 m
  have hnonneg := settles_nonneg rates₁ e.state a m
  unfold chargeOf growth
  cases hm' : e₂.state.getMarket m with
  | none =>
    cases e.state.getMarket m <;> simpa using hnonneg
  | some market' =>
    obtain ⟨market, hm⟩ := Option.isSome_iff_exists.mp
      (hthere.mp (by rw [← hget, hm']; rfl))
    rw [hm]
    dsimp only
    by_cases hmem : m ∈ rates₁.map (·.1)
    · rw [if_pos hmem]
      have howed : owed e.state m market'.state.fundingAccumulator a =
          (e.state.sizeAt a m * (market'.state.fundingAccumulator.value -
            market.state.fundingAccumulator.value)).tdiv (10 ^ 12) := by
        have hscale := hend.scale market' hm'
        unfold owed sizeAt
        cases hp : e.state.getPosition a m with
        | none => simp
        | some p =>
          dsimp only [Option.map_some, Option.getD_some]
          cases hempty : p.isEmpty with
          | true =>
            have hzero : p.size.value = 0 := by simpa [Position.isEmpty] using hempty
            simp [hzero]
          | false =>
            rw [h0.level p market hp hm hempty, hscale]
            norm_num
      rw [howed]
      by_cases hzero : e.state.sizeAt a m = 0
      · simpa [hzero] using hnonneg
      · have hone : settles rates₁ e.state a m = 1 := if_pos ⟨hmem, hzero⟩
        rw [hone]
        have hnear := sum_tdiv_near (d := 10 ^ 12) (by norm_num)
          [e.state.sizeAt a m * (market'.state.fundingAccumulator.value -
            market.state.fundingAccumulator.value)]
        simpa using hnear
    · have hsame := settleMarkets_unsettled h1 hmem
      rw [← hget, hm', hm] at hsame
      obtain rfl := Option.some.inj hsame
      simpa [hmem] using hnonneg

end Call

/-! ### What is charged is what leaves the balance -/

section Balance

variable {e e' : Engine} {a b : AccountAddress} {m : MarketId} {rate acc : Decimal}
  {t : Timestamp}

theorem settleAccount_owed (hwf : PositionsWF e.state)
    (h : settleAccount m rate acc t e a = .ok e') :
    balanceOf e'.state b =
      (balanceOf e.state b).map (· - if a = b then owed e.state m acc a else 0) := by
  rcases settleAccount_cases h with ⟨rfl, hempty⟩ | ⟨p, payment, p', hp, -, hsettle, -, hbal, -⟩
  · have hzero : owed e'.state m acc a = 0 := by
      unfold owed
      cases hp : e'.state.getPosition a m with
      | none => rfl
      | some p =>
        have hsize : p.size.value = 0 := by simpa [Position.isEmpty] using hempty p hp
        simp [hsize]
    rw [hzero]
    cases balanceOf e'.state b <;> simp
  · rw [hbal b]
    have hpay : owed e.state m acc a = payment.value := by
      unfold owed
      rw [hp]
      exact (settleFunding_payment (hwf _ _ _ hp) hsettle).1.symm
    rw [hpay]
    congr 1
    funext x
    split <;> omega

theorem accounts_owed {as : List AccountAddress} (hnd : as.Nodup) (hwf : PositionsWF e.state)
    (h : as.foldlM (settleAccount m rate acc t) e = .ok e') :
    balanceOf e'.state b =
      (balanceOf e.state b).map (· - if b ∈ as then owed e.state m acc b else 0) := by
  induction as generalizing e with
  | nil =>
    obtain rfl := foldlM_nil_eq_ok.mp h
    cases balanceOf e.state b <;> simp
  | cons c as ih =>
    obtain ⟨e₁, h1, h⟩ := foldlM_cons_eq_ok.mp h
    obtain ⟨hc, hnd⟩ := List.nodup_cons.mp hnd
    rw [ih hnd ((settleAccount_posWrites h1).wf hwf) h, settleAccount_owed hwf h1, Option.map_map]
    congr 1
    funext x
    dsimp only [Function.comp_apply]
    by_cases hcb : c = b
    · subst hcb
      simp [hc]
    · rw [if_neg hcb, owed_congr (settleAccount_others h1 fun hk => hcb hk.1)]
      simp [Ne.symm hcb]

theorem settleHolders_owed {mr : MarketId × Decimal} {market : Market}
    (hm : e.state.getMarket mr.1 = some market) (hwf : PositionsWF e.state)
    (h : settleHolders t e mr = .ok e') :
    balanceOf e'.state b = (balanceOf e.state b).map
      (· - owed e.state mr.1 market.state.fundingAccumulator b) := by
  rcases settleHolders_cases h with ⟨hnone, -⟩ | ⟨market', e₁, hm', hfold, rfl⟩
  · rw [hm] at hnone
    cases hnone
  · obtain rfl := Option.some.inj (hm.symm.trans hm')
    have hend : balanceOf e₁.state b = (balanceOf e.state b).map
        (· - owed e.state mr.1 market.state.fundingAccumulator b) := by
      rw [accounts_owed (holders_nodup e.state mr.1) hwf hfold]
      congr 1
      funext x
      split
      · rfl
      · rename_i hnot
        have hzero : owed e.state mr.1 market.state.fundingAccumulator b = 0 := by
          unfold owed
          cases hp : e.state.getPosition b mr.1 with
          | none => rfl
          | some p =>
            cases hempty : p.isEmpty with
            | false => exact absurd (mem_holders.mpr ⟨p, hp, hempty⟩) hnot
            | true =>
              have hsize : p.size.value = 0 := by simpa [Position.isEmpty] using hempty
              simp [hsize]
        rw [hzero]
    exact hend

theorem settleRates_owed {rates : List (MarketId × Decimal)} (hnd : (rates.map (·.1)).Nodup)
    (hthere : ∀ k ∈ rates.map (·.1), (e.state.getMarket k).isSome) (hwf : PositionsWF e.state)
    (h : rates.foldlM (settleHolders t) e = .ok e') :
    balanceOf e'.state b = (balanceOf e.state b).map
      (· - ((rates.map (·.1)).map fun m => ((e.state.getMarket m).map fun market =>
        owed e.state m market.state.fundingAccumulator b).getD 0).sum) := by
  induction rates generalizing e with
  | nil =>
    obtain rfl := foldlM_nil_eq_ok.mp h
    cases balanceOf e.state b <;> simp
  | cons mr rates ih =>
    obtain ⟨e₁, h1, h⟩ := foldlM_cons_eq_ok.mp h
    obtain ⟨hne, hnd⟩ := List.nodup_cons.mp hnd
    obtain ⟨market, hm⟩ := Option.isSome_iff_exists.mp (hthere mr.1 (.head _))
    have hget : ∀ k, e₁.state.getMarket k = e.state.getMarket k := by
      intro k
      unfold getMarket
      rw [settleHolders_markets h1]
    rw [ih hnd (fun k hk => by rw [hget]; exact hthere k (.tail _ hk)) (settleHolders_wf hwf h1) h,
      settleHolders_owed hm hwf h1, Option.map_map]
    congr 1
    funext x
    have hrest : ((rates.map (·.1)).map fun m => ((e₁.state.getMarket m).map fun market =>
          owed e₁.state m market.state.fundingAccumulator b).getD 0) =
        (rates.map (·.1)).map fun m => ((e.state.getMarket m).map fun market =>
          owed e.state m market.state.fundingAccumulator b).getD 0 := by
      refine List.map_congr_left fun k hk => ?_
      rw [hget]
      congr 2
      funext market
      refine owed_congr (settleHolders_others h1 ?_ b)
      rintro rfl
      exact hne hk
    simp only [List.map_cons, List.sum_cons, hm, Option.map_some, Option.getD_some,
      Function.comp_apply, hrest]
    omega

/-- **Charges.** The balance of every account falls by what the call charges it over all markets.
The accumulators are fixed before the first account is settled, and a settlement touches one
account in one market, so the charges add up market by market. -/
theorem processFunding_charges {rates : List (MarketId × Decimal)} (he : e.Reachable)
    (h : e.processFunding t = .ok (rates, e')) (b : AccountAddress) :
    balanceOf e'.state b = (balanceOf e.state b).map
      (· - ((rates.map (·.1)).map fun m => chargeOf rates e.state e'.state b m).sum) := by
  have hwf := he.positionsWF
  obtain ⟨⟨rates₁, e₁⟩, h1, h⟩ := bind_inv h
  obtain ⟨e₂, h2, h⟩ := bind_inv h
  obtain ⟨rfl, rfl⟩ := pair_inv h
  obtain ⟨new, rfl, hsub, hpos, hun⟩ := settleMarkets_spec h1
  have hposition : ∀ a m, e₁.state.getPosition a m = e.state.getPosition a m := by
    intro a m
    unfold getPosition
    rw [hpos]
  have hthere : ∀ k ∈ rates₁.map (·.1), (e₁.state.getMarket k).isSome := by
    intro k hk
    rw [settleMarkets_there h1]
    obtain ⟨p, hp, rfl⟩ := List.mem_map.mp (hsub.subset hk)
    unfold getMarket
    rw [FinMap.mem_toList.mp hp]
    rfl
  rw [settleRates_owed ((FinMap.nodup_keys e.state.markets).sublist hsub) hthere
    (fun a m p hp => hwf a m p ((hposition a m).symm.trans hp)) h2]
  have haccounts : balanceOf e₁.state b = balanceOf e.state b :=
    settleMarkets_balance h1 b
  rw [haccounts]
  congr 1
  funext x
  congr 2
  refine List.map_congr_left fun k hk => ?_
  have hget : e₂.state.getMarket k = e₁.state.getMarket k := by
    unfold getMarket
    rw [settleRates_markets h2]
  unfold chargeOf
  rw [hget]
  obtain ⟨market, hm⟩ := Option.isSome_iff_exists.mp (hthere k hk)
  rw [hm]
  dsimp only [Option.map_some, Option.getD_some]
  rw [if_pos hk]
  exact owed_congr (hposition b k)

end Balance

/-! ### Runs -/

/-- An engine with the funding of one account in one market metered, raw. -/
structure Metered where
  engine : Engine
  /-- What was charged. -/
  charged : Int
  /-- Size at each settlement times the growth of the accumulator in it, summed. -/
  exposure : Int
  /-- Settlements of the account's open position. -/
  settlements : Int

/-- One operation, metered. -/
def meteredStep (a : AccountAddress) (m : MarketId) : Op → Metered → Exec Metered
  | .processFunding t, x => do
    let (rates, e) ← x.engine.processFunding t
    return {
      engine := e
      charged := x.charged + chargeOf rates x.engine.state e.state a m
      exposure := x.exposure + x.engine.state.sizeAt a m * growth x.engine.state e.state m
      settlements := x.settlements + settles rates x.engine.state a m }
  | op, x => do
    let e ← step op x.engine
    return { x with engine := e }

theorem Fresh.accumulator_scale {e : Engine} (h : Fresh e) (m : MarketId) (market : Market)
    (hm : e.state.getMarket m = some market) :
    market.state.fundingAccumulator.decimals = 10 := by
  obtain ⟨config, price, t, -, rfl⟩ := h.markets_new m market hm
  rfl

theorem Fresh.attributable {e : Engine} (h : Fresh e) (a : AccountAddress) (m : MarketId) :
    Attributable a m e := by
  have hnone : ∀ b k, e.state.getPosition b k = none := by
    intro b k
    unfold getPosition
    rw [h.no_positions, FinMap.get_empty]
    rfl
  refine ⟨fun b k p hp => ?_, h.accumulator_scale m, fun p _ hp => ?_⟩
  · rw [hnone] at hp
    cases hp
  · rw [hnone] at hp
    cases hp

/-- **Step lemma.** -/
theorem step_attributable {e e' : Engine} {op : Op} {a : AccountAddress} {m : MarketId}
    (h0 : Attributable a m e) (hopens : OpensLevel a m e op) (h : step op e = .ok e') :
    Attributable a m e' := by
  refine (attributable_keeps a m).step_induction h0 hopens
    (fun _ _ _ hfund => processFunding_attributable h0 hfund) (fun hext => ?_) h
  obtain ⟨_, hs⟩ := external_only hext h
  obtain ⟨hwf, hscale, hlevel⟩ := h0
  constructor <;> rw [hs]
  · exact hwf
  · exact hscale
  · exact hlevel

/-- The charges are as attributed so far. -/
structure Attributed (a : AccountAddress) (m : MarketId) (x : Metered) : Prop where
  next : Attributable a m x.engine
  near : |10 ^ 12 * x.charged - x.exposure| ≤ 10 ^ 12 * x.settlements

theorem meteredStep_attributed {a : AccountAddress} {m : MarketId} {x y : Metered} {op : Op}
    (h0 : Attributed a m x) (hopens : OpensLevel a m x.engine op)
    (h : meteredStep a m op x = .ok y) : Attributed a m y := by
  have hother : ∀ e, step op x.engine = .ok e → y = { x with engine := e } →
      Attributed a m y := by
    rintro e hstep rfl
    exact ⟨step_attributable h0.next hopens hstep, h0.near⟩
  cases op with
  | processFunding t =>
    obtain ⟨⟨rates, e⟩, hfund, h⟩ := bind_inv h
    obtain rfl := pure_inv h
    refine ⟨processFunding_attributable h0.next hfund, ?_⟩
    have hcall := chargeOf_near h0.next hfund
    calc |10 ^ 12 * (x.charged + chargeOf rates x.engine.state e.state a m) -
          (x.exposure + x.engine.state.sizeAt a m * growth x.engine.state e.state m)|
        = |(10 ^ 12 * x.charged - x.exposure) +
            (10 ^ 12 * chargeOf rates x.engine.state e.state a m -
              x.engine.state.sizeAt a m * growth x.engine.state e.state m)| := by
          congr 1
          ring
      _ ≤ |10 ^ 12 * x.charged - x.exposure| +
            |10 ^ 12 * chargeOf rates x.engine.state e.state a m -
              x.engine.state.sizeAt a m * growth x.engine.state e.state m| := abs_add_le _ _
      _ ≤ 10 ^ 12 * x.settlements + 10 ^ 12 * settles rates x.engine.state a m :=
          add_le_add h0.near hcall
      _ = 10 ^ 12 * (x.settlements + settles rates x.engine.state a m) := by ring
  | _ =>
    obtain ⟨e, hstep, h⟩ := bind_inv h
    exact hother e hstep (pure_inv h).symm

/-- **Attribution.** Along every run in which each fill that opens the account's position in
the market finds the position's index at the accumulator, the account is charged its size
at each settlement times the growth of the accumulator in it, to within one micro-USDC for
each settlement. -/
theorem funding_attributed_of_level_openings {a : AccountAddress} {m : MarketId} {e₀ : Engine}
    {x : Metered} (h0 : Fresh e₀)
    (h : Run.Reaches (meteredStep a m) (fun x op => OpensLevel a m x.engine op)
      ⟨e₀, 0, 0, 0⟩ x) :
    |10 ^ 12 * x.charged - x.exposure| ≤ 10 ^ 12 * x.settlements :=
  (h.invariant (P := Attributed a m) ⟨h0.attributable a m, by simp⟩
    fun _ _ _ hx hopens hstep => meteredStep_attributed hx hopens hstep).near

/-! ### Two runs -/

/-- A metered run from the fresh BTC engine, each step checked. -/
def meteredRun (ok : Metered → Op → Prop) [∀ x op, Decidable (ok x op)] (a : AccountAddress)
    (ops : List Op) : Exec (Engine × Metered) := do
  let e₀ ← btcEngine none
  let x ← ops.foldlM (fun x op => if ok x op then meteredStep a 0 op x else .error .panic)
    ⟨e₀, 0, 0, 0⟩
  return (e₀, x)

theorem meteredRun_eq_ok {ok : Metered → Op → Prop} [∀ x op, Decidable (ok x op)]
    {a : AccountAddress} {ops : List Op} {e₀ : Engine} {x : Metered}
    (h : meteredRun ok a ops = .ok (e₀, x)) :
    Fresh e₀ ∧ Run.Reaches (meteredStep a 0) ok ⟨e₀, 0, 0, 0⟩ x := by
  obtain ⟨e₁, h1, h⟩ := bind_inv h
  obtain ⟨y, h2, h⟩ := bind_inv h
  obtain ⟨rfl, rfl⟩ := pair_inv h
  exact ⟨btcEngine_fresh h1, .of_checked (fun _ _ => inferInstance) h2⟩

/-- Account 1 buys from account 2 before the first settlement. -/
def firstSettlement : List Op := [.deposit 1 1000000000000, .deposit 2 1000000000000,
  .placeOrder 2 (limitOrder .sell .gtc 7000000000000 10000000) 5,
  .placeOrder 1 (limitOrder .buy .gtc 7000000000000 10000000) 6,
  .processFunding 28800000]

/-- Account 1 pays for the position it holds at the first settlement. -/
theorem first_settlement_charged : ∃ (e e' : Engine) (rates : List (MarketId × Decimal)),
    Reachable e ∧ e.processFunding 28800000 = .ok (rates, e') ∧
    chargeOf rates e.state e'.state 1 0 = 3275000 ∧
    balanceOf e'.state 1 = (balanceOf e.state 1).map (· - 3275000) := by
  obtain ⟨⟨e, rates, e'⟩, hrun, htest⟩ := exists_of_test
    (x := do
      let e ← btcRun none (firstSettlement.take 4)
      return (e, ← e.processFunding 28800000))
    (p := fun x => decide (x.2.1.map (·.1) = [0] ∧
      chargeOf x.2.1 x.1.state x.2.2.state 1 0 = 3275000)) (by decide +kernel)
  obtain ⟨hrates, hcharge⟩ := of_decide_eq_true htest
  obtain ⟨e₁, h1, hrun⟩ := bind_inv hrun
  obtain ⟨y, hfund, hrun⟩ := bind_inv hrun
  obtain ⟨rfl, rfl⟩ := pair_inv hrun
  have he := btcRun_reachable h1
  have hbalance := processFunding_charges he hfund 1
  rw [hrates, List.map_singleton, List.sum_singleton, hcharge] at hbalance
  exact ⟨e₁, e', rates, he, hfund, hcharge, hbalance⟩

/-- Account 1 closes its position after a settlement, opens it again before the next, and
is charged for both. -/
theorem funding_attributed_after_reopening : ∃ (e₀ : Engine) (x : Metered), Fresh e₀ ∧
    Run.Reaches (meteredStep 1 0) (fun x op => OpensLevel 1 0 x.engine op) ⟨e₀, 0, 0, 0⟩ x ∧
    x.charged = 6592750 ∧ x.settlements = 2 ∧
    |10 ^ 12 * x.charged - x.exposure| ≤ 10 ^ 12 * x.settlements := by
  obtain ⟨⟨e₀, x⟩, hrun, htest⟩ := exists_of_test
    (x := meteredRun (fun x op => OpensLevel 1 0 x.engine op) 1 (firstSettlement ++ [
      .placeOrder 2 (limitOrder .buy .gtc 7000000000000 10000000) 28800001,
      .placeOrder 1 (limitOrder .sell .gtc 7000000000000 10000000) 28800002,
      .placeOrder 2 (limitOrder .sell .gtc 7000000000000 10000000) 28800003,
      .placeOrder 1 (limitOrder .buy .gtc 7000000000000 10000000) 28800004,
      .processFunding 57600000]))
    (p := fun y => decide (y.2.charged = 6592750 ∧ y.2.settlements = 2)) (by decide +kernel)
  obtain ⟨h0, hreach⟩ := meteredRun_eq_ok hrun
  obtain ⟨hcharged, hsettled⟩ := of_decide_eq_true htest
  exact ⟨e₀, x, h0, hreach, hcharged, hsettled,
    funding_attributed_of_level_openings h0 hreach⟩

/-- Account 3 opens its first position after a settlement. In the next one it is charged
6.5725 USDC, 3.275 of them for the growth before it came. -/
theorem funding_charged_before_opening : ∃ (e₀ : Engine) (x : Metered), Fresh e₀ ∧
    Run.Reaches (meteredStep 3 0) (fun _ _ => True) ⟨e₀, 0, 0, 0⟩ x ∧
    x.charged = 6572500 ∧ x.exposure = 3297500 * 10 ^ 12 ∧ x.settlements = 1 ∧
    10 ^ 12 * x.settlements < |10 ^ 12 * x.charged - x.exposure| := by
  obtain ⟨⟨e₀, x⟩, hrun, htest⟩ := exists_of_test
    (x := meteredRun (fun _ _ => True) 3 (firstSettlement ++ [.deposit 3 1000000000000,
      .placeOrder 2 (limitOrder .sell .gtc 7000000000000 10000000) 28800001,
      .placeOrder 3 (limitOrder .buy .gtc 7000000000000 10000000) 28800002,
      .processFunding 57600000]))
    (p := fun y => decide (y.2.charged = 6572500 ∧ y.2.exposure = 3297500 * 10 ^ 12 ∧
      y.2.settlements = 1)) (by decide +kernel)
  obtain ⟨h0, hreach⟩ := meteredRun_eq_ok hrun
  obtain ⟨hcharged, hexposure, hsettled⟩ := of_decide_eq_true htest
  refine ⟨e₀, x, h0, hreach, hcharged, hexposure, hsettled, ?_⟩
  rw [hcharged, hexposure, hsettled]
  decide

end Engine

end Hypercore
