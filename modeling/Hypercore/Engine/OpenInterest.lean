import Hypercore.Engine.Rejection
/-!
# Hypercore.Engine.OpenInterest

Open interest is the sum of the position sizes on each side, and the sizes of a
market sum to zero.

**Sums over accounts.** `sumSizes g s m` adds up `g` of the size of every account's
position in market `m`. A write of one position moves it by one difference
(`sumSizes_setPosition`), so a fill moves it by two, and these are the differences
that `fillPositions` adds to the market (`fillPositions_openInterest`). `SizesKept`
is the frame: updates that leave all sums and the open interest alone.
-/

namespace Hypercore

open Exec Int128

namespace EngineState

/-! ### Sums of sizes -/

/-- Raw size of an account's position in a market, zero without one. -/
def sizeAt (s : EngineState) (a : AccountAddress) (m : MarketId) : Int :=
  (((s.getPosition a m).map (·.size.value)).getD 0)

/-- The sum of a function of the position size over all accounts. -/
def sumSizes (g : Int → Int) (s : EngineState) (m : MarketId) : Int :=
  FinMap.total (fun _ ps => g (((ps[m]?).map (·.size.value)).getD 0)) s.positions

variable {s s' : EngineState} {a b : AccountAddress} {m k : MarketId} {g : Int → Int}

theorem sizeAt_setPosition (p : Position) : (s.setPosition a m p).sizeAt b k =
    if a = b ∧ m = k then p.size.value else s.sizeAt b k := by
  unfold sizeAt
  rw [getPosition_setPosition]
  split <;> rfl

/-- **Update rule.** Writing a position moves the sum by the difference it makes. -/
theorem sumSizes_setPosition (hg : g 0 = 0) (p : Position) :
    sumSizes g (s.setPosition a m p) k =
      sumSizes g s k - g (s.sizeAt a k) + g ((s.setPosition a m p).sizeAt a k) := by
  have hweight : FinMap.weight (fun _ ps => g (((ps[k]?).map (·.size.value)).getD 0))
      s.positions a = g (s.sizeAt a k) := by
    unfold FinMap.weight sizeAt getPosition
    cases s.positions[a]? with
    | none => exact hg.symm
    | some ps => rfl
  have hnew : g (((((s.positions[a]?).getD ∅).insert m p)[k]?.map (·.size.value)).getD 0) =
      g ((s.setPosition a m p).sizeAt a k) := by
    unfold sizeAt getPosition setPosition
    rw [FinMap.get_insert_self, Option.bind_some]
  rw [← hnew, ← hweight]
  exact FinMap.total_insert _ _ _ _

theorem sumSizes_setPosition_ne (hg : g 0 = 0) (p : Position) (h : m ≠ k) :
    sumSizes g (s.setPosition a m p) k = sumSizes g s k := by
  rw [sumSizes_setPosition hg, sizeAt_setPosition, if_neg (fun hc => h hc.2)]
  omega

/-- Sums, open interest and the existence of positions are as before. -/
structure SizesKept (s s' : EngineState) : Prop where
  sums : ∀ (g : Int → Int) (m : MarketId), g 0 = 0 → sumSizes g s' m = sumSizes g s m
  markets : ∀ m mk', s'.getMarket m = some mk' → ∃ mk, s.getMarket m = some mk ∧
    mk'.state.openInterestLong = mk.state.openInterestLong ∧
    mk'.state.openInterestShort = mk.state.openInterestShort
  held : ∀ a m, (s.getPosition a m).isSome → (s'.getPosition a m).isSome

/-- Open interest of every market is the sum over accounts, side by side, and the sides
balance. -/
def OpenInterestOk (s : EngineState) : Prop :=
  ∀ m mk, s.getMarket m = some mk →
    mk.state.openInterestLong.value = sumSizes (max · 0) s m ∧
    mk.state.openInterestShort.value = sumSizes (fun x => max (-x) 0) s m ∧
    sumSizes (fun x => x) s m = 0

namespace SizesKept

theorem refl (s : EngineState) : SizesKept s s :=
  ⟨fun _ _ _ => rfl, fun _ mk' h => ⟨mk', h, rfl, rfl⟩, fun _ _ h => h⟩

theorem trans {s t u : EngineState} (h : SizesKept s t) (h' : SizesKept t u) :
    SizesKept s u := by
  refine ⟨fun g m hg => (h'.sums g m hg).trans (h.sums g m hg), fun m mk hm => ?_,
    fun a m hp => h'.held a m (h.held a m hp)⟩
  obtain ⟨mk₁, h1, h2, h3⟩ := h'.markets m mk hm
  obtain ⟨mk₂, h4, h5, h6⟩ := h.markets m mk₁ h1
  exact ⟨mk₂, h4, h2.trans h5, h3.trans h6⟩

/-- Positions and markets are untouched. -/
theorem of_same (hp : s'.positions = s.positions) (hm : s'.markets = s.markets) :
    SizesKept s s' := by
  refine ⟨fun g m _ => by unfold sumSizes; rw [hp], fun m mk' h => ⟨mk', ?_, rfl, rfl⟩,
    fun a m h => ?_⟩
  · unfold getMarket at h ⊢
    rw [← hm]
    exact h
  · unfold getPosition at h ⊢
    rw [hp]
    exact h

/-- A write that keeps the size of the position. -/
theorem of_setPosition {p : Position} (h : p.size.value = s.sizeAt a m) :
    SizesKept s (s.setPosition a m p) := by
  refine ⟨fun g k hg => ?_, fun k mk' hm => ⟨mk', hm, rfl, rfl⟩, fun b k hp => ?_⟩
  · rw [sumSizes_setPosition hg, sizeAt_setPosition]
    split
    · rename_i hk
      rw [h, hk.2]
      omega
    · omega
  · rw [getPosition_setPosition]
    split
    · rfl
    · exact hp

/-- A write to a market's state that keeps open interest. -/
theorem of_modifyMarket {f : MarketState → Exec MarketState}
    (hf : ∀ st st', f st = .ok st' → st'.openInterestLong = st.openInterestLong ∧
      st'.openInterestShort = st.openInterestShort)
    (h : s.modifyMarket m f = .ok s') : SizesKept s s' := by
  rcases modifyMarket_eq_ok h with ⟨-, rfl⟩ | ⟨mk, st, hm, hst, rfl⟩
  · exact .refl _
  · refine ⟨fun _ _ _ => rfl, fun k mk' hk => ?_, fun _ _ hp => hp⟩
    unfold getMarket at hk
    rw [FinMap.get_insert] at hk
    split at hk
    · rename_i hkm
      obtain rfl := Option.some.inj hk
      exact ⟨mk, hkm ▸ hm, hf _ _ hst⟩
    · exact ⟨mk', hk, rfl, rfl⟩

theorem openInterestOk (h : SizesKept s s') (hs : OpenInterestOk s) : OpenInterestOk s' := by
  intro m mk' hm
  obtain ⟨mk, h1, h2, h3⟩ := h.markets m mk' hm
  rw [h2, h3, h.sums _ m (by simp), h.sums _ m (by simp), h.sums _ m rfl]
  exact hs m mk h1

end SizesKept

end EngineState

namespace Engine

open EngineState

/-! ### One fill -/

/-- The change of open interest is the change of the two sides of the size. -/
theorem oiDelta_value {before after long short : Decimal}
    (h : oiDelta before after = .ok (long, short)) :
    long.value = max after.value 0 - max before.value 0 ∧
      short.value = max (-after.value) 0 - max (-before.value) 0 := by
  obtain ⟨sb, hsb, h⟩ := bind_inv h
  obtain ⟨sa, hsa, h⟩ := bind_inv h
  obtain ⟨dl, hdl, h⟩ := bind_inv h
  obtain ⟨ds, hds, h⟩ := bind_inv h
  obtain ⟨rfl, rfl⟩ := pair_inv h
  have hpos : ∀ d : Decimal,
      (if d.isPositive then d else ⟨0, 8⟩ : Decimal).value = max d.value 0 := by
    intro d
    split
    · rename_i hd
      have := Decimal.isPositive_iff.mp hd
      omega
    · rename_i hd
      have := Decimal.isPositive_eq_false.mp (Bool.eq_false_iff.mpr hd)
      simp only
      omega
  have hneg : ∀ d r : Decimal, (if d.isNegative then d.neg else pure ⟨0, 8⟩) = .ok r →
      r.value = max (-d.value) 0 := by
    intro d r hr
    split at hr
    · rename_i hd
      have := Decimal.isNegative_iff.mp hd
      rw [(Decimal.neg_eq_ok.mp hr).2]
      simp only
      omega
    · rename_i hd
      have := Decimal.isNegative_eq_false.mp (Bool.eq_false_iff.mpr hd)
      rw [← pure_inv hr]
      simp only
      omega
  rw [(Decimal.sub_eq_ok.mp hdl).2, (Decimal.sub_eq_ok.mp hds).2]
  exact ⟨by simp only [hpos], by simp only [hneg _ _ hsb, hneg _ _ hsa]⟩

/-- The parties of a fill are different and have positions in its market. -/
structure Settleable (s : EngineState) (fill : Fill) : Prop where
  parties : fill.maker ≠ fill.taker
  maker : (s.getPosition fill.maker fill.marketId).isSome
  taker : (s.getPosition fill.taker fill.marketId).isSome

/-- The signed size a fill gives its taker. -/
def takerSize (fill : Fill) : Int :=
  if fill.isTakerBuy then ofU128 fill.size else -ofU128 fill.size

/-- A write through `get_position_mut` of an existing position. -/
theorem applyFill_setPosition {s s' : EngineState} {a : AccountAddress} {m : MarketId}
    {f price : Decimal} {isBuy : Bool} (hp : (s.getPosition a m).isSome)
    (h : s.modifyPosition a m (fun p => p.applyFill f price isBuy) = .ok s') :
    ∃ p', s' = s.setPosition a m p' ∧
      p'.size.value = s.sizeAt a m + if isBuy then f.value else -f.value := by
  rcases modifyPosition_eq_ok h with ⟨hnone, -⟩ | ⟨p, p', hp, hfill, rfl⟩
  · rw [hnone] at hp
    exact absurd hp (by simp)
  · refine ⟨p', rfl, ?_⟩
    rw [Position.applyFill_size hfill]
    simp only [sizeAt, hp, Option.map_some, Option.getD_some]

theorem sizeOf_value (s : EngineState) (a : AccountAddress) (m : MarketId) :
    (sizeOf s a m).value = s.sizeAt a m := by
  unfold sizeOf sizeAt
  cases s.getPosition a m <;> rfl

variable {fill : Fill} {e e' : Engine} {config : MarketConfig}

/-- **Step lemma.** A fill moves open interest by what it does to the sizes of its
parties, and these cancel. -/
theorem fillPositions_openInterest {s s' : EngineState} (hs : OpenInterestOk s)
    (hfill : Settleable s fill) (h : fillPositions s fill = .ok s') :
    OpenInterestOk s' ∧
      ∀ a m, (s.getPosition a m).isSome → (s'.getPosition a m).isSome := by
  obtain ⟨s₁, h1, h⟩ := bind_inv h
  obtain ⟨s₂, h2, h⟩ := bind_inv h
  obtain ⟨⟨ml, ms⟩, hmaker, h⟩ := bind_inv h
  obtain ⟨dl, hdl, h⟩ := bind_inv h
  obtain ⟨ds, hds, h⟩ := bind_inv h
  obtain ⟨⟨tl, ts⟩, htaker, h⟩ := bind_inv h
  obtain ⟨dl', hdl', h⟩ := bind_inv h
  obtain ⟨ds', hds', h⟩ := bind_inv h
  obtain ⟨p₁, rfl, hp₁⟩ := applyFill_setPosition hfill.maker h1
  have htaker₁ : ((s.setPosition fill.maker fill.marketId p₁).getPosition fill.taker
      fill.marketId) = s.getPosition fill.taker fill.marketId := by
    rw [getPosition_setPosition, if_neg (fun hc => hfill.parties hc.1)]
  obtain ⟨p₂, rfl, hp₂⟩ := applyFill_setPosition (by rw [htaker₁]; exact hfill.taker) h2
  set s₁ := s.setPosition fill.maker fill.marketId p₁ with hs₁
  set s₂ := s₁.setPosition fill.taker fill.marketId p₂ with hs₂
  have hy : s₁.sizeAt fill.taker fill.marketId = s.sizeAt fill.taker fill.marketId := by
    unfold sizeAt
    rw [htaker₁]
  have hx₂ : s₂.sizeAt fill.maker fill.marketId = p₁.size.value := by
    rw [hs₂, sizeAt_setPosition, if_neg (fun hc => hfill.parties hc.1.symm), hs₁,
      sizeAt_setPosition, if_pos ⟨rfl, rfl⟩]
  have hy₂ : s₂.sizeAt fill.taker fill.marketId = p₂.size.value := by
    rw [hs₂, sizeAt_setPosition, if_pos ⟨rfl, rfl⟩]
  have hx₁ : s₁.sizeAt fill.maker fill.marketId = p₁.size.value := by
    rw [hs₁, sizeAt_setPosition, if_pos ⟨rfl, rfl⟩]
  -- the two sizes move by the same amount in opposite directions
  have hdx : p₁.size.value = s.sizeAt fill.maker fill.marketId - takerSize fill := by
    rw [hp₁]
    unfold takerSize fillSize
    cases fill.isTakerBuy with
    | false => simp
    | true =>
      simp
      omega
  have hdy : p₂.size.value = s.sizeAt fill.taker fill.marketId + takerSize fill := by
    rw [hp₂, hy]
    rfl
  have hsum : ∀ g : Int → Int, g 0 = 0 → sumSizes g s₂ fill.marketId =
      sumSizes g s fill.marketId - g (s.sizeAt fill.maker fill.marketId) + g p₁.size.value
        - g (s.sizeAt fill.taker fill.marketId) + g p₂.size.value := by
    intro g hg
    rw [hs₂, sumSizes_setPosition hg, ← hs₂, hy, hy₂, hs₁, sumSizes_setPosition hg, ← hs₁, hx₁]
  have hother : ∀ (g : Int → Int) k, g 0 = 0 → k ≠ fill.marketId →
      sumSizes g s₂ k = sumSizes g s k := by
    intro g k hg hk
    rw [hs₂, sumSizes_setPosition_ne hg _ (Ne.symm hk), hs₁,
      sumSizes_setPosition_ne hg _ (Ne.symm hk)]
  have hheld : ∀ a m, (s.getPosition a m).isSome → (s₂.getPosition a m).isSome := by
    intro a m hp
    rw [hs₂, getPosition_setPosition]
    split
    · rfl
    · rw [hs₁, getPosition_setPosition]
      split
      · rfl
      · exact hp
  obtain ⟨hml, hms⟩ := oiDelta_value hmaker
  obtain ⟨htl, hts⟩ := oiDelta_value htaker
  rw [sizeOf_value, sizeOf_value, hx₂] at hml hms
  rw [sizeOf_value, sizeOf_value, hy₂] at htl hts
  have hlong : dl'.value = max p₁.size.value 0 - max (s.sizeAt fill.maker fill.marketId) 0 +
      (max p₂.size.value 0 - max (s.sizeAt fill.taker fill.marketId) 0) := by
    rw [(Decimal.add_eq_ok.mp hdl').2, (Decimal.add_eq_ok.mp hdl).2]
    simp only [hml, htl]
    omega
  have hshort : ds'.value = max (-p₁.size.value) 0 - max (-s.sizeAt fill.maker fill.marketId) 0 +
      (max (-p₂.size.value) 0 - max (-s.sizeAt fill.taker fill.marketId) 0) := by
    rw [(Decimal.add_eq_ok.mp hds').2, (Decimal.add_eq_ok.mp hds).2]
    simp only [hms, hts]
    omega
  rcases modifyMarket_eq_ok h with ⟨hnone, rfl⟩ | ⟨mk, st, hmk, hst, rfl⟩
  · refine ⟨fun m mk hm => ?_, hheld⟩
    have hk : m ≠ fill.marketId := by
      rintro rfl
      rw [show s₂.getMarket fill.marketId = none from hnone] at hm
      exact absurd hm (by simp)
    rw [hother _ m (by simp) hk, hother _ m (by simp) hk, hother _ m rfl hk]
    exact hs m mk hm
  · refine ⟨fun m mk' hm => ?_, hheld⟩
    unfold getMarket at hm
    rw [FinMap.get_insert] at hm
    show mk'.state.openInterestLong.value = sumSizes (max · 0) s₂ m ∧
      mk'.state.openInterestShort.value = sumSizes (fun x => max (-x) 0) s₂ m ∧
      sumSizes (fun x => x) s₂ m = 0
    split at hm
    · rename_i hk
      subst hk
      obtain rfl := Option.some.inj hm
      obtain ⟨o1, o2, o3⟩ := hs fill.marketId mk hmk
      obtain ⟨l, hl, hst⟩ := bind_inv hst
      obtain ⟨sh, hsh, hst⟩ := bind_inv hst
      obtain rfl := pure_inv hst
      rw [hsum _ (by simp), hsum _ (by simp), hsum _ rfl]
      refine ⟨?_, ?_, ?_⟩
      · rw [(Decimal.add_eq_ok.mp hl).2]
        simp only [o1, hlong]
        omega
      · rw [(Decimal.add_eq_ok.mp hsh).2]
        simp only [o2, hshort]
        omega
      · simp only [o3, hdx, hdy]
        omega
    · rename_i hk
      rw [hother _ m (by simp) (Ne.symm hk), hother _ m (by simp) (Ne.symm hk),
        hother _ m rfl (Ne.symm hk)]
      exact hs m mk' hm

theorem fillMarket_sizesKept {s s' : EngineState} (h : fillMarket s fill = .ok s') :
    SizesKept s s' := by
  obtain ⟨s₁, h1, h⟩ := bind_inv h
  refine (SizesKept.of_modifyMarket (fun st st' hst => ?_) h1).trans
    (SizesKept.of_modifyMarket (fun st st' hst => ?_) h)
  · obtain rfl := pure_inv hst
    exact ⟨rfl, rfl⟩
  · split at hst
    · obtain rfl := pure_inv hst
      exact ⟨rfl, rfl⟩
    · obtain ⟨_, -, hst⟩ := bind_inv hst
      obtain ⟨_, -, hst⟩ := bind_inv hst
      obtain ⟨_, -, hst⟩ := bind_inv hst
      obtain ⟨_, -, hst⟩ := bind_inv hst
      obtain rfl := pure_inv hst
      exact ⟨rfl, rfl⟩

theorem fillRecord_sizesKept (s : EngineState) (fill : Fill) : SizesKept s (fillRecord s fill) := by
  obtain ⟨_, _, _, _, _, h⟩ := fillRecord_writes s fill
  rw [h]
  exact .of_same rfl rfl

/-- A fill keeps open interest right, positions in place and books as they are. -/
theorem applyFill_openInterest (hs : OpenInterestOk e.state) (hfill : Settleable e.state fill)
    (h : e.applyFill fill = .ok e') :
    OpenInterestOk e'.state ∧
      ∀ a m, (e.state.getPosition a m).isSome → (e'.state.getPosition a m).isSome := by
  obtain ⟨s₁, s₂, s₃, s₄, u, h1, h2, h3, h4, rfl⟩ := applyFill_steps h
  obtain ⟨hoi, hheld⟩ := fillPositions_openInterest hs hfill h1
  have hacc : ∀ {s t : EngineState} {a : AccountAddress} {fee : Int},
      subBalance s a fee = .ok t → SizesKept s t := by
    intro s t a fee ht
    obtain ⟨_, rfl⟩ := modifyAccount_only ht
    exact .of_same rfl rfl
  have hkept : SizesKept s₁ (fillRecord s₄ fill) :=
    (((hacc h2).trans (hacc h3)).trans (fillMarket_sizesKept h4)).trans
      (fillRecord_sizesKept s₄ fill)
  exact ⟨hkept.openInterestOk hoi, fun a m hp => hkept.held a m (hheld a m hp)⟩

theorem Settleable.priced {s t : EngineState} {fill' : Fill} (h : Settleable s fill)
    (hprice : priceFill t config fill = .ok fill') :
    Settleable s fill' := by
  obtain ⟨_, _, _, _, rfl⟩ := priceFill_spec hprice
  exact ⟨h.parties, h.maker, h.taker⟩

theorem settleFills_openInterest {fills fills' : List Fill} (hs : OpenInterestOk e.state)
    (hfills : ∀ f ∈ fills, Settleable e.state f)
    (h : settleFills config fills e = .ok (fills', e')) :
    OpenInterestOk e'.state ∧
      ∀ a m, (e.state.getPosition a m).isSome → (e'.state.getPosition a m).isSome := by
  induction fills generalizing e e' fills' with
  | nil =>
    obtain ⟨-, rfl⟩ := pair_inv h
    exact ⟨hs, fun _ _ hp => hp⟩
  | cons fill fills ih =>
    obtain ⟨fill', hprice, h⟩ := bind_inv h
    obtain ⟨e₁, h1, h⟩ := bind_inv h
    obtain ⟨⟨rest, e₂⟩, h2, h⟩ := bind_inv h
    obtain ⟨-, rfl⟩ := pair_inv h
    have hfill := (hfills fill (.head _)).priced hprice
    obtain ⟨hoi, hheld⟩ := applyFill_openInterest hs hfill h1
    obtain ⟨hoi₂, hheld₂⟩ := ih hoi (fun f hf => by
      have hf' := hfills f (.tail _ hf)
      exact ⟨hf'.1, hheld _ _ hf'.2, hheld _ _ hf'.3⟩) h2
    exact ⟨hoi₂, fun a m hp => hheld₂ a m (hheld a m hp)⟩

end Engine

end Hypercore
