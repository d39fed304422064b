import Hypercore.Chain.Tx
import Hypercore.Primitives.DecimalText
import Hypercore.Spot.TimeInForce
/-!
# Hypercore.Spot.Alignment

The scales of spot sizes and of spot balances.

The transaction layer reads every size with eight decimal places, and the balance sheet adds
and compares raw values; the places of a token enter only where a size is checked against the
lot. So a raw size moves from seller to buyer whatever the token, and it is worth what the
fill says exactly when the token has eight places, too.
-/

namespace Hypercore

open Exec Int128 OrderBook

/-- Only positive amounts become positive ones. -/
theorem Decimal.toDecimals_pos {d e : Decimal} {k : Nat} (h : d.toDecimals k = .ok e)
    (he : 0 < e.value) : 0 < d.value := by
  rcases Nat.lt_trichotomy k d.decimals with hk | rfl | hk
  · rw [toDecimals_down hk] at h
    rw [h.2] at he
    by_contra hle
    have hneg : (-d.value).tdiv (10 ^ (d.decimals - k)) ≥ 0 :=
      Int.tdiv_nonneg (by omega) (by positivity)
    rw [Int.neg_tdiv] at hneg
    dsimp only at he
    omega
  · rw [toDecimals_self] at h
    cases h
    exact he
  · rw [toDecimals_up hk] at h
    rw [h.2.2] at he
    exact pos_of_mul_pos_left he (by positivity)

/-- Who receives the base size of a fill. -/
def SpotFill.buyer (fill : SpotFill) : AccountAddress :=
  if fill.isTakerBuy then fill.taker else fill.maker

/-- Who delivers it. -/
def SpotFill.seller (fill : SpotFill) : AccountAddress :=
  if fill.isTakerBuy then fill.maker else fill.taker

namespace SpotEngineState

/-! ### Sizes of orders -/

/-- What is left of an order is positive and has eight places. -/
def Sized (o : Order) : Prop := o.remainingSize.decimals = 8 ∧ 0 < o.remainingSize.value

section Matching

variable {m : SpotMarketId} {config : SpotMarketConfig} {x x' : Matched} {maker : Order}
  {fuel : Nat}

/-- The loop has orders of eight places before it, and has matched positive sizes. -/
structure EightPlaces (x : Matched) : Prop where
  taker : x.remaining.remainingSize.decimals = 8 ∧ 0 ≤ x.remaining.remainingSize.value
  book : x.book.AllOrders Sized
  fills : ∀ fill ∈ x.fills, fill.baseSize.decimals = 8 ∧ 0 < fill.baseSize.value

/-- **Step.** -/
theorem EightPlaces.matchOne (hx : EightPlaces x) (hopen : x.remaining.isFilled = false)
    (hmaker : Sized maker) (h : matchOne m config x maker = .ok x') : EightPlaces x' := by
  obtain ⟨fill, left, hfills, hfill, hleft, hremaining, hbook⟩ := matchOne_spec h
  obtain ⟨-, rfl⟩ := Decimal.sub_eq_ok.mp hleft
  obtain ⟨htaker, hnonneg⟩ := hx.taker
  have hpos : 0 < x.remaining.remainingSize.value := by
    have hne := Decimal.isZero_eq_false.mp hopen
    omega
  have hmin := Decimal.min_value x.remaining.remainingSize maker.remainingSize
  have hsize : fill.baseSize.decimals = 8 ∧ 0 < fill.baseSize.value := by
    rw [hfill]
    unfold Decimal.min
    split
    · exact ⟨htaker, hpos⟩
    · exact hmaker
  rw [← hfill] at hmin
  constructor
  · rw [hremaining]
    refine ⟨htaker, ?_⟩
    dsimp only
    split at hmin <;> omega
  · rcases hbook with hbook | ⟨-, r, hr, hzero, hbook⟩
    · rw [hbook]
      exact hx.book.remove _
    · obtain ⟨-, rfl⟩ := Decimal.sub_eq_ok.mp hr
      have hne := Decimal.isZero_eq_false.mp hzero
      refine AllOrders.insert (hx.book.remove _) ?_ hbook
      refine ⟨hmaker.1, ?_⟩
      show 0 < maker.remainingSize.value - fill.baseSize.value
      dsimp only at hne
      split at hmin <;> omega
  · rw [hfills]
    intro fill' hfill'
    rcases List.mem_append.mp hfill' with hold | hnew
    · exact hx.fills fill' hold
    · obtain rfl := List.mem_singleton.mp hnew
      exact hsize

/-- **Loop.** -/
theorem EightPlaces.matchOrder (hx : EightPlaces x) (h : matchOrder m config fuel x = .ok x') :
    EightPlaces x' :=
  matchOrder_rule (fun hx hopen hbest hone => hx.matchOne hopen (hx.book.best hbest) hone) hx h

end Matching

/-! ### Tokens and markets -/

/-- Tokens stay, and so do the configurations of markets. -/
structure SameListing (s s' : SpotEngineState) : Prop where
  tokens : s'.tokens = s.tokens
  nextTokenIndex : s'.nextTokenIndex = s.nextTokenIndex
  configs : ∀ m : SpotMarketId,
    (s'.markets[m]?).map (·.config) = (s.markets[m]?).map (·.config)

section SameListing

variable {s s' t : SpotEngineState} {m : SpotMarketId} {a : AccountAddress}
  {config : SpotMarketConfig} {fill : SpotFill}

theorem SameListing.refl (s : SpotEngineState) : SameListing s s := ⟨rfl, rfl, fun _ => rfl⟩

theorem SameListing.trans (h : SameListing s s') (h' : SameListing s' t) : SameListing s t :=
  ⟨h'.tokens.trans h.tokens, h'.nextTokenIndex.trans h.nextTokenIndex,
    fun m => (h'.configs m).trans (h.configs m)⟩

theorem BalancesOnly.listing (h : BalancesOnly s s') : SameListing s s' := by
  obtain ⟨_, _, rfl⟩ := h
  exact ⟨rfl, rfl, fun _ => rfl⟩

theorem modifyMarket_listing {f : SpotMarketState → Exec SpotMarketState}
    (h : s.modifyMarket m f = .ok s') : SameListing s s' := by
  unfold modifyMarket at h
  cases hm : s.markets[m]? with
  | none =>
    simp only [hm] at h
    obtain rfl := pure_inv h
    exact .refl s
  | some market =>
    simp only [hm] at h
    obtain ⟨state, -, h⟩ := bind_inv h
    obtain rfl := pure_inv h
    refine ⟨rfl, rfl, fun k => ?_⟩
    dsimp only
    rw [FinMap.get_insert]
    split
    · rename_i hk
      rw [← hk, hm]
      rfl
    · rfl

/-! ### Fills -/

theorem legs_parties {l : Legs} (h : legs fill = .ok l) :
    l.buyer = fill.buyer ∧ l.seller = fill.seller := by
  obtain ⟨quoteUsdc, -, h⟩ := bind_inv h
  obtain ⟨buyerFee, -, h⟩ := bind_inv h
  obtain ⟨sellerFee, -, h⟩ := bind_inv h
  obtain ⟨quoteWithFee, -, h⟩ := bind_inv h
  obtain rfl := pure_inv h
  unfold SpotFill.buyer SpotFill.seller
  cases fill.isTakerBuy <;> exact ⟨rfl, rfl⟩

theorem releaseBalance_sheet {k : TokenIndex} {amount : Decimal}
    (h : s.releaseBalance a k amount = .ok s') : s'.unifiedState = s.unifiedState := by
  unfold releaseBalance at h
  dsimp only at h
  split at h
  · obtain rfl := pure_inv h
    rfl
  · obtain ⟨left, -, h⟩ := bind_inv h
    obtain rfl := pure_inv h
    rfl

/-- Raw base balances from one sheet to the other: the buyer got the base size, and the seller
gave it. -/
def BaseMoved (fill : SpotFill) (k : TokenIndex) (u u' : UnifiedState) : Prop :=
  ∀ a : AccountAddress, u'.coreRaw a k = u.coreRaw a k +
    (if fill.buyer = a then fill.baseSize.value else 0) -
      (if fill.seller = a then fill.baseSize.value else 0)

variable {r : Except Error Unit}

/-- **Inversion.** A fill fails after it changed balances at most, or it moves its raw base
size and is recorded in its market. -/
theorem applyFill_cases (h : s.applyFill config fill = .ok (r, s')) :
    (BalancesOnly s s' ∧ ∃ err, r = .error err) ∨
      ∃ s₁, BalancesOnly s s₁ ∧ r = .ok () ∧
        s₁.modifyMarket fill.marketId (fun state => recordTrade state fill) = .ok s' ∧
        (config.quoteToken ≠ config.baseToken →
          BaseMoved fill config.baseToken s.unifiedState s₁.unifiedState) := by
  obtain ⟨l, hl, h⟩ := bind_inv h
  obtain ⟨hbuyer, hseller⟩ := legs_parties hl
  obtain ⟨s₁, h1, h⟩ := bind_inv h
  obtain ⟨s₂, h2, h⟩ := bind_inv h
  obtain ⟨⟨paid, s₃⟩, h3, h⟩ := bind_inv h
  have hpaid : BalancesOnly s s₃ :=
    ((releaseBalance_only h1).trans (releaseBalance_only h2)).trans (debitBalance_only h3)
  dsimp only at h
  split at h
  · obtain ⟨rfl, rfl⟩ := pair_inv h
    exact .inl ⟨hpaid, _, rfl⟩
  obtain ⟨s₄, h4, h⟩ := bind_inv h
  obtain ⟨receives, -, h⟩ := bind_inv h
  obtain ⟨⟨delivered, s₅⟩, h5, h⟩ := bind_inv h
  have hdelivered : BalancesOnly s s₅ :=
    (hpaid.trans (creditBalance_only h4)).trans (debitBalance_only h5)
  dsimp only at h
  split at h
  · obtain ⟨rfl, rfl⟩ := pair_inv h
    exact .inl ⟨hdelivered, _, rfl⟩
  rename_i hdone
  obtain ⟨s₆, h6, h⟩ := bind_inv h
  obtain ⟨s₇, h7, h⟩ := bind_inv h
  obtain ⟨rfl, rfl⟩ := pair_inv h
  refine .inr ⟨s₆, hdelivered.trans (creditBalance_only h6), rfl, h7, fun hne a => ?_⟩
  -- the quote legs leave the base token
  have hquote : ∀ b : AccountAddress, ¬ (b = a ∧ config.quoteToken = config.baseToken) :=
    fun b hb => hne hb.2
  have hs₂ : s₂.unifiedState = s.unifiedState :=
    (releaseBalance_sheet h2).trans (releaseBalance_sheet h1)
  have h3' : s₃.unifiedState.coreRaw a config.baseToken =
      s.unifiedState.coreRaw a config.baseToken := by
    obtain ⟨⟨done, u⟩, hu, h3⟩ := bind_inv h3
    obtain ⟨-, rfl⟩ := pair_inv h3
    rw [← hs₂]
    rcases UnifiedState.debitCore_cases hu with ⟨-, rfl, -⟩ | ⟨-, -, hcore⟩
    · rfl
    · rw [hcore, if_neg (hquote _), sub_zero]
  have h4' : s₄.unifiedState.coreRaw a config.baseToken =
      s₃.unifiedState.coreRaw a config.baseToken +
        if fill.buyer = a then fill.baseSize.value else 0 := by
    obtain ⟨u, hu, h4⟩ := bind_inv h4
    obtain rfl := pure_inv h4
    rw [UnifiedState.credit_core hu, hbuyer]
    simp
  have h5' : s₅.unifiedState.coreRaw a config.baseToken =
      s₄.unifiedState.coreRaw a config.baseToken -
        if fill.seller = a then fill.baseSize.value else 0 := by
    obtain ⟨⟨done, u⟩, hu, h5⟩ := bind_inv h5
    obtain ⟨rfl, rfl⟩ := pair_inv h5
    rcases UnifiedState.debitCore_cases hu with ⟨rfl, -⟩ | ⟨-, -, hcore⟩
    · simp at hdone
    · rw [hcore, hseller]
      simp
  have h6' : s₆.unifiedState.coreRaw a config.baseToken =
      s₅.unifiedState.coreRaw a config.baseToken := by
    obtain ⟨u, hu, h6⟩ := bind_inv h6
    obtain rfl := pure_inv h6
    rw [UnifiedState.credit_core hu, if_neg (hquote _), add_zero]
  rw [h6', h5', h4', h3']

theorem applyFill_listing (h : s.applyFill config fill = .ok (r, s')) :
    SameListing s s' := by
  rcases applyFill_cases h with ⟨hbalances, -⟩ | ⟨s₁, hbalances, -, hmarket, -⟩
  · exact hbalances.listing
  · exact hbalances.listing.trans (modifyMarket_listing hmarket)

theorem applyFills_listing {fills : List SpotFill} (h : applyFills config fills s = .ok (r, s')) :
    SameListing s s' := by
  induction fills generalizing s with
  | nil =>
    obtain ⟨-, rfl⟩ := pair_inv h
    exact .refl s
  | cons fill fills ih =>
    obtain ⟨⟨r₁, s₁⟩, h1, h⟩ := bind_inv h
    cases r₁ with
    | error err =>
      obtain ⟨-, rfl⟩ := pair_inv h
      exact applyFill_listing h1
    | ok u => exact (applyFill_listing h1).trans (ih h)

/-! ### Orders -/

theorem removeOrder_listing (s : SpotEngineState) (m : SpotMarketId) (id : OrderId) :
    SameListing s (s.removeOrder m id) := by
  unfold SpotEngineState.removeOrder
  split
  · dsimp only
    split <;> split <;> exact ⟨rfl, rfl, fun _ => rfl⟩
  · exact .refl s

theorem updateOrderRemaining_listing (s : SpotEngineState) (m : SpotMarketId) (id : OrderId)
    (r : Decimal) : SameListing s (s.updateOrderRemaining m id r) := by
  unfold SpotEngineState.updateOrderRemaining
  split <;> exact ⟨rfl, rfl, fun _ => rfl⟩

theorem foldl_listing {ι : Type} {f : SpotEngineState → ι → SpotEngineState}
    (hf : ∀ s i, SameListing s (f s i)) : ∀ (is : List ι) (s : SpotEngineState),
      SameListing s (is.foldl f s)
  | [], s => .refl s
  | i :: is, s => (hf s i).trans (foldl_listing hf is (f s i))

theorem syncMakers_listing (s : SpotEngineState) (m : SpotMarketId) (x : Matched) :
    SameListing s (s.syncMakers m x) :=
  (foldl_listing (fun s id => removeOrder_listing s m id) _ _).trans
    (foldl_listing (fun s (p : OrderId × Decimal) => updateOrderRemaining_listing s m p.1 p.2)
      _ _)

theorem addOrder_listing {o : Order} (h : s.addOrder o = .ok s') : SameListing s s' := by
  obtain ⟨_, _, _, rfl⟩ := addOrder_frame h
  exact ⟨rfl, rfl, fun _ => rfl⟩

theorem Executed.listing {market : SpotMarket} {o : Order} {book : OrderBook} {x : Matched}
    {paid : Except Error Unit} (h : Executed s m market o book x paid s') :
    SameListing s s' := by
  have hset : SameListing s (s.setOrderbook m x.book) := ⟨rfl, rfl, fun _ => rfl⟩
  exact (hset.trans (syncMakers_listing _ m x)).trans (applyFills_listing h.applied)

end SameListing

/-! ### Scales -/

/-- Every market trades a token for USDC, on the places of the token and from a positive size
on. -/
structure Listed (s : SpotEngineState) : Prop where
  next_ne : s.nextTokenIndex ≠ 0
  /-- Indices are given out in order. -/
  below : ∀ (i : TokenIndex) (t : SpotToken), s.tokens[i]? = some t →
    i.toNat < s.nextTokenIndex.toNat
  base : ∀ (m : SpotMarketId) (market : SpotMarket), s.markets[m]? = some market →
    ∃ t, s.tokens[market.config.baseToken]? = some t ∧
      market.config.lotSize.decimals = t.weiDecimals.toNat
  quote : ∀ (m : SpotMarketId) (market : SpotMarket), s.markets[m]? = some market →
    market.config.quoteToken = 0 ∧ market.config.baseToken ≠ 0
  lot : ∀ (m : SpotMarketId) (market : SpotMarket), s.markets[m]? = some market →
    0 < market.config.minOrderSize.value

/-- The markets are listed, and what stands in books has eight places. -/
structure Scaled (s : SpotEngineState) : Prop where
  listed : s.Listed
  books : s.maps.AllBooks Sized

section Scaled

variable {s s' : SpotEngineState} {m : SpotMarketId} {a : AccountAddress}

theorem SameListing.market (h : SameListing s s') {market' : SpotMarket}
    (hm : s'.markets[m]? = some market') :
    ∃ market, s.markets[m]? = some market ∧ market.config = market'.config := by
  have hconfigs := h.configs m
  rw [hm] at hconfigs
  exact Option.map_eq_some_iff.mp hconfigs.symm

theorem SameListing.listed (h : SameListing s s') (hs : s.Listed) : s'.Listed := by
  refine ⟨by rw [h.nextTokenIndex]; exact hs.next_ne, fun i t hi => ?_, fun k market' hk => ?_,
    fun k market' hk => ?_, fun k market' hk => ?_⟩
  · rw [h.tokens] at hi
    rw [h.nextTokenIndex]
    exact hs.below i t hi
  · obtain ⟨market, hmarket, hconfig⟩ := h.market hk
    rw [← hconfig, h.tokens]
    exact hs.base k market hmarket
  · obtain ⟨market, hmarket, hconfig⟩ := h.market hk
    rw [← hconfig]
    exact hs.quote k market hmarket
  · obtain ⟨market, hmarket, hconfig⟩ := h.market hk
    rw [← hconfig]
    exact hs.lot k market hmarket

theorem Scaled.of_maps (hs : s.Scaled) (h : SameListing s s') (hmaps : s'.maps = s.maps) :
    s'.Scaled := ⟨h.listed hs.listed, by rw [hmaps]; exact hs.books⟩

theorem Scaled.only (hs : s.Scaled) (h : BalancesOnly s s') : s'.Scaled :=
  hs.of_maps h.listing h.trades.maps

variable {P : Order → Prop}

theorem allBooks_foldl {ι : Type} {f : SpotEngineState → ι → SpotEngineState}
    (hf : ∀ s i, s.maps.AllBooks P → (f s i).maps.AllBooks P) :
    ∀ (is : List ι) {s : SpotEngineState}, s.maps.AllBooks P → (is.foldl f s).maps.AllBooks P
  | [], _, hs => hs
  | i :: is, _, hs => allBooks_foldl hf is (hf _ i hs)

theorem allBooks_syncMakers (hs : s.maps.AllBooks P) (m : SpotMarketId) (x : Matched) :
    (s.syncMakers m x).maps.AllBooks P := by
  have hremoved := allBooks_foldl (f := fun s id => s.removeOrder m id) (fun s id hs => by
    rw [(maps_removeOrder s m id).1]
    exact hs.removeOrder fun _ hb => hb.remove id) x.filledMakerIds hs
  exact allBooks_foldl (f := fun s (p : OrderId × Decimal) => s.updateOrderRemaining m p.1 p.2)
    (fun s p hs => by
      rw [(maps_updateOrderRemaining s m p.1 p.2).1]
      exact hs.restateRecord m p.1 p.2) x.partiallyFilledMakers hremoved

/-- **Execution** of an order of eight places. -/
theorem Scaled.executeOrder {market : SpotMarket} {o : Order} {token : TokenIndex}
    {reserve : Decimal} {r : Except Error (Order × List SpotFill)} (hs : s.Scaled)
    (ho : Sized o) (h : s.executeOrder m market o token reserve = .ok (r, s')) : s'.Scaled := by
  rcases executeOrder_cases h with ⟨rfl, -⟩ | ⟨book, x, paid, s₁, hexec, hend⟩
  · exact hs
  have hx : EightPlaces x := EightPlaces.matchOrder
    ⟨⟨ho.1, ho.2.le⟩, hs.books m book hexec.book_eq, by simp⟩ hexec.loop
  have hset : (s.setOrderbook m x.book).maps.AllBooks Sized := hs.books.setBook hx.book
  have hs₁ : s₁.Scaled := by
    refine ⟨hexec.listing.listed hs.listed, ?_⟩
    rw [hexec.trades.maps]
    exact allBooks_syncMakers hset m x
  rcases hend with ⟨rfl, -⟩ | ⟨-, -, hsettle⟩
  · exact hs₁
  · rcases settleRemaining_cases hsettle with ⟨hopen, -, hadd⟩ | ⟨-, honly⟩
    · have hne := Decimal.isZero_eq_false.mp hopen
      obtain ⟨hplaces, hnonneg⟩ := hx.taker
      exact ⟨(addOrder_listing hadd).listed hs₁.listed,
        hs₁.books.addOrder (fun _ _ hb hins => hb.insert ⟨hplaces, by omega⟩ hins)
          (maps_addOrder hadd).1⟩
    · exact hs₁.only honly

/-- A size that passes the checks is positive. -/
theorem validateOrder_pos {q : OrderRequest} {config : SpotMarketConfig}
    (hlot : 0 < config.minOrderSize.value) (h : validateOrder q config = .ok (.ok ())) :
    0 < q.size.value := by
  unfold validateOrder at h
  split at h
  · cases pure_inv h
  obtain ⟨sized, -, h⟩ := bind_inv h
  split at h
  · cases pure_inv h
  obtain ⟨normalized, hnormalized, h⟩ := bind_inv h
  split at h
  · cases pure_inv h
  rename_i hmin
  refine Decimal.toDecimals_pos hnormalized ?_
  omega

/-- **Placement** of an order of eight places. -/
theorem Scaled.placeOrder {q : OrderRequest} {time : Timestamp}
    {r : Except Error (Order × List SpotFill)} (hs : s.Scaled) (hq : q.size.decimals = 8)
    (h : s.placeOrder a m q time = .ok (r, s')) : s'.Scaled := by
  rcases placeOrder_cases h with
    ⟨rfl, -⟩ | ⟨s₁, market, token, reserve, hmarket, hvalid, -, h1, hexec⟩
  · exact hs
  · have hs₁ : Scaled { s₁ with nextOrderId := s.nextOrderId + 1 } :=
      (hs.only (reserveBalance_only h1)).of_maps ⟨rfl, rfl, fun _ => rfl⟩ rfl
    exact hs₁.executeOrder ⟨hq, validateOrder_pos (hs.listed.lot m market hmarket) hvalid⟩ hexec

theorem Scaled.cancelOrder {id : OrderId} {r : Except Error Order} (hs : s.Scaled)
    (h : s.cancelOrder a m id = .ok (r, s')) : s'.Scaled := by
  rcases cancelOrder_cases h with ⟨rfl, -⟩ | ⟨o, s₁, -, -, -, honly, rfl⟩
  · exact hs
  · have hs₁ := hs.only honly
    refine ⟨(removeOrder_listing s₁ m id).listed hs₁.listed, ?_⟩
    rw [(maps_removeOrder s₁ m id).1]
    exact hs₁.books.removeOrder fun _ hb => hb.remove id

theorem Scaled.cancelOrders {os canceled : List Order} (hs : s.Scaled)
    (h : SpotEngineState.cancelOrders a m os s = .ok (canceled, s')) : s'.Scaled :=
  cancelOrders_rule (fun hs hone => hs.cancelOrder hone) hs h

/-- A token is traded from one lot on. -/
theorem newUsdcPair_lot {t : SpotToken} {config : SpotMarketConfig}
    (h : SpotMarketConfig.newUsdcPair t m = .ok config) :
    config.quoteToken = 0 ∧ config.baseToken = t.index ∧
      config.lotSize.decimals = t.weiDecimals.toNat ∧ 0 < config.minOrderSize.value := by
  obtain ⟨lot, hlot, h⟩ := bind_inv h
  obtain rfl := pure_inv h
  refine ⟨rfl, rfl, rfl, ?_⟩
  unfold SpotToken.lotSize at hlot
  dsimp only at hlot
  split at hlot
  · rename_i hlt
    obtain rfl := Except.ok.inj hlot
    have hplaces : (t.weiDecimals - t.szDecimals).toNat < 39 :=
      (Nat.pow_lt_pow_iff_right (by decide : 1 < 10)).mp (hlt.trans (by norm_num))
    have hbound : 10 ^ (t.weiDecimals - t.szDecimals).toNat ≤ 10 ^ 38 :=
      Nat.pow_le_pow_right (by decide) (by omega)
    show 0 < ofU128 (10 ^ (t.weiDecimals - t.szDecimals).toNat)
    unfold ofU128
    rw [if_pos (hbound.trans_lt (by norm_num))]
    positivity
  · cases hlot

theorem Scaled.deployToken {params : SpotTokenDeployParams} {r : Except Error SpotToken}
    (hs : s.Scaled) (h : s.deployToken params a = .ok (r, s')) : s'.Scaled := by
  rcases deployToken_cases h with
    ⟨rfl, -⟩ | ⟨token, next, s₁, nextMarketId, config, -, hindex, hnext, hcredited, -, hconfig,
      rfl⟩
  · exact hs
  have hnext_toNat : next.toNat = s.nextTokenIndex.toNat + 1 := by
    unfold u8 at hnext
    split at hnext
    · rename_i hlt
      rw [← Except.ok.inj hnext, UInt8.toNat_ofNat', Nat.mod_eq_of_lt hlt]
    · cases hnext
  have hs₀ : Scaled { s with nextTokenIndex := next } := by
    refine ⟨⟨fun hzero => ?_, fun i t hi => ?_, hs.listed.base, hs.listed.quote, hs.listed.lot⟩,
      hs.books⟩
    · rw [show next = 0 from hzero] at hnext_toNat
      exact Nat.succ_ne_zero _ hnext_toNat.symm
    · have hlt := hs.listed.below i t hi
      show i.toNat < next.toNat
      omega
  have hs₁ := hs₀.only hcredited
  have htokens : s₁.tokens = s.tokens := hcredited.listing.tokens
  have hnext₁ : s₁.nextTokenIndex = next := hcredited.listing.nextTokenIndex
  obtain ⟨hquote, hbase, hplaces, hlot⟩ := newUsdcPair_lot hconfig
  have hmarket : ∀ {k : SpotMarketId} {market : SpotMarket},
      (s₁.markets.insert s₁.nextMarketId (.new config))[k]? = some market →
        market = .new config ∨ s₁.markets[k]? = some market := by
    intro k market hk
    rw [FinMap.get_insert] at hk
    split at hk
    · exact .inl (Option.some.inj hk).symm
    · exact .inr hk
  refine ⟨⟨hs₁.listed.next_ne, fun i t hi => ?_, fun k market hk => ?_, fun k market hk => ?_,
    fun k market hk => ?_⟩, hs₁.books.setBook .new⟩
  · dsimp only at hi ⊢
    rw [FinMap.get_insert] at hi
    rw [hnext₁]
    split at hi
    · rename_i heq
      rw [← heq, hindex]
      omega
    · rw [htokens] at hi
      have hlt := hs.listed.below i t hi
      omega
  · dsimp only
    rcases hmarket hk with rfl | hold
    · refine ⟨_, ?_, hplaces⟩
      show (s₁.tokens.insert _ _)[config.baseToken]? = _
      rw [hbase]
      exact FinMap.get_insert_self ..
    · -- an older token has another index
      obtain ⟨t, ht, hdecimals⟩ := hs₁.listed.base k market hold
      refine ⟨t, ?_, hdecimals⟩
      rw [htokens] at ht
      have hlt := hs.listed.below _ t ht
      rw [FinMap.get_insert_ne _ _ fun heq => ?_, htokens, ht]
      rw [← heq, hindex] at hlt
      exact lt_irrefl _ hlt
  · rcases hmarket hk with rfl | hold
    · refine ⟨hquote, ?_⟩
      show config.baseToken ≠ 0
      rw [hbase, hindex]
      exact hs.listed.next_ne
    · exact hs₁.listed.quote k market hold
  · rcases hmarket hk with rfl | hold
    · exact hlot
    · exact hs₁.listed.lot k market hold

end Scaled

/-! ### What placing an order applies -/

/-- A fill of a list is applied from one state to the other, after those before it. -/
def InTurn (config : SpotMarketConfig) (fill : SpotFill) (t t' : SpotEngineState) :
    List SpotFill → SpotEngineState → Prop
  | [], _ => False
  | f :: fs, s => (f = fill ∧ s = t ∧ s.applyFill config f = .ok (.ok (), t')) ∨
      ∃ s₁, s.applyFill config f = .ok (.ok (), s₁) ∧ InTurn config fill t t' fs s₁

/-- A request passes the balance check, and its reserve is taken. -/
def Accepted (s : SpotEngineState) (a : AccountAddress) (config : SpotMarketConfig)
    (q : OrderRequest) (token : TokenIndex) (reserve : Decimal) (s₁ : SpotEngineState) : Prop :=
  reserveFor config q.side q.size q.price = .ok (token, reserve) ∧
    s.reserveBalance a token reserve = .ok (true, s₁)

/-- While a request is placed, a fill is applied from one state to the other. -/
def Applies (s : SpotEngineState) (a : AccountAddress) (m : SpotMarketId) (q : OrderRequest)
    (time : Timestamp) (fill : SpotFill) (t t' : SpotEngineState) : Prop :=
  ∃ market token reserve s₁ book x, s.getMarket m = some market ∧
    validateOrder q market.config = .ok (.ok ()) ∧
    Accepted s a market.config q token reserve s₁ ∧ s₁.orderbooks[m]? = some book ∧
    matchOrder m market.config (turns (.new s.nextOrderId a q time) book)
      ⟨.new s.nextOrderId a q time, book, [], [], []⟩ = .ok x ∧
    InTurn market.config fill t t' x.fills
      (syncMakers ({ s₁ with nextOrderId := s.nextOrderId + 1 }.setOrderbook m x.book) m x)

section Applies

variable {s s' t t' : SpotEngineState} {m : SpotMarketId} {a : AccountAddress}
  {q : OrderRequest} {time : Timestamp} {fill : SpotFill} {config : SpotMarketConfig}
variable {fills : List SpotFill}

theorem InTurn.mem (h : InTurn config fill t t' fills s) :
    fill ∈ fills ∧ t.applyFill config fill = .ok (.ok (), t') := by
  induction fills generalizing s with
  | nil => exact h.elim
  | cons f fs ih =>
    rcases h with ⟨rfl, rfl, h⟩ | ⟨s₁, -, h⟩
    · exact ⟨.head _, h⟩
    · exact ⟨.tail _ (ih h).1, (ih h).2⟩

/-- When all fills are applied, each is. -/
theorem inTurn_of_applyFills (hmem : fill ∈ fills)
    (h : applyFills config fills s = .ok (.ok (), s')) :
    ∃ t t', InTurn config fill t t' fills s := by
  induction fills generalizing s with
  | nil => cases hmem
  | cons f fs ih =>
    obtain ⟨⟨r₁, s₁⟩, h1, h⟩ := bind_inv h
    cases r₁ with
    | error err => cases pure_inv h
    | ok u =>
      rcases List.mem_cons.mp hmem with rfl | hmem
      · exact ⟨s, s₁, .inl ⟨rfl, rfl, h1⟩⟩
      · obtain ⟨t, t', hturn⟩ := ih hmem h
        exact ⟨t, t', .inr ⟨s₁, h1, hturn⟩⟩

/-- Every fill that placing an order returns is applied. -/
theorem placeOrder_applies {order : Order}
    (h : s.placeOrder a m q time = .ok (.ok (order, fills), s')) (hmem : fill ∈ fills) :
    ∃ t t', s.Applies a m q time fill t t' := by
  rcases placeOrder_cases h with
    ⟨-, err, hr⟩ | ⟨s₁, market, token, reserve, hmarket, hvalid, hreserve, h1, hexec⟩
  · cases hr
  rcases executeOrder_cases hexec with ⟨-, err, hr⟩ | ⟨book, x, paid, s₂, hx, hend⟩
  · cases hr
  rcases hend with ⟨-, err, hr⟩ | ⟨rfl, hr, -⟩
  · cases hr
  obtain ⟨rfl, rfl⟩ := Prod.mk.inj (Except.ok.inj hr)
  obtain ⟨t, t', hturn⟩ := inTurn_of_applyFills hmem hx.applied
  exact ⟨t, t', market, token, reserve, s₁, book, x, hmarket, hvalid, ⟨hreserve, h1⟩,
    hx.book_eq, hx.loop, hturn⟩

end Applies

/-! ### Worth -/

/-- The quantity that a raw amount of a token is, on the places of the token. -/
def quantity (token : SpotToken) (raw : Int) : ℚ :=
  Decimal.toRat ⟨raw, token.weiDecimals.toNat⟩

/-- From one state to the other the buyer of a fill got its base size, the seller gave it, and
no other balance of the token moved. -/
def Delivers (token : SpotToken) (k : TokenIndex) (fill : SpotFill) (t t' : SpotEngineState) :
    Prop :=
  ∀ a : AccountAddress,
    quantity token (t'.unifiedState.coreRaw a k - t.unifiedState.coreRaw a k) =
      (if fill.buyer = a then fill.baseSize.toRat else 0) -
        (if fill.seller = a then fill.baseSize.toRat else 0)

/-- What an account has available of a token covers a size. -/
def CoversSize (s : SpotEngineState) (a : AccountAddress) (k : TokenIndex) (token : SpotToken)
    (size : Decimal) : Prop :=
  ∃ available, (s.getBalance a k).available = .ok available ∧
    size.toRat ≤ quantity token available.value

section Worth

variable {s s' t t' : SpotEngineState} {m : SpotMarketId} {a : AccountAddress}
  {token : SpotToken} {fill : SpotFill} {config : SpotMarketConfig}

/-- The same raw amount is the same quantity on two scales exactly when they are one. -/
theorem toRat_eq_iff {v : Int} (hv : 0 < v) (d e : Nat) :
    Decimal.toRat ⟨v, d⟩ = Decimal.toRat ⟨v, e⟩ ↔ d = e := by
  refine ⟨fun h => ?_, fun h => by rw [h]⟩
  unfold Decimal.toRat at h
  dsimp only at h
  have hv' : (v : ℚ) ≠ 0 := by exact_mod_cast hv.ne'
  rw [div_eq_div_iff (by positivity) (by positivity)] at h
  exact (pow_right_injective₀ (by norm_num : (0 : ℚ) < 10) (by norm_num)
    (mul_left_cancel₀ hv' h)).symm

theorem toRat_le_iff (v w : Int) (d e : Nat) :
    Decimal.toRat ⟨v, d⟩ ≤ Decimal.toRat ⟨w, e⟩ ↔ v * 10 ^ e ≤ w * 10 ^ d := by
  unfold Decimal.toRat
  rw [div_le_div_iff₀ (by positivity) (by positivity)]
  norm_cast

variable {k : TokenIndex}

/-- **A fill.** It delivers its size on the places of eight, or between one account and
itself. -/
theorem delivers_iff (hsize : fill.baseSize.decimals = 8 ∧ 0 < fill.baseSize.value)
    (hmoved : BaseMoved fill k t.unifiedState t'.unifiedState) :
    Delivers token k fill t t' ↔ token.weiDecimals = 8 ∨ fill.maker = fill.taker := by
  obtain ⟨hplaces, hpos⟩ := hsize
  have hworth : ∀ v : Int, token.weiDecimals = 8 → quantity token v = Decimal.toRat ⟨v, 8⟩ := by
    intro v hwei
    unfold quantity
    rw [hwei]
    rfl
  have hbase : fill.baseSize.toRat = Decimal.toRat ⟨fill.baseSize.value, 8⟩ := by
    rw [← hplaces]
  have hchange : ∀ b : AccountAddress,
      t'.unifiedState.coreRaw b k - t.unifiedState.coreRaw b k =
        (if fill.buyer = b then fill.baseSize.value else 0) -
          (if fill.seller = b then fill.baseSize.value else 0) := by
    intro b
    have hb := hmoved b
    omega
  have hparties : fill.buyer = fill.seller ↔ fill.maker = fill.taker := by
    unfold SpotFill.buyer SpotFill.seller
    cases fill.isTakerBuy
    · exact Iff.rfl
    · exact eq_comm
  constructor
  · intro hdelivers
    by_cases hsame : fill.buyer = fill.seller
    · exact .inr (hparties.mp hsame)
    · -- the buyer got a raw amount that is worth the size
      have hbuyer := hdelivers fill.buyer
      rw [hchange, if_pos rfl, if_neg (Ne.symm hsame), if_pos rfl, if_neg (Ne.symm hsame),
        sub_zero, sub_zero, hbase] at hbuyer
      refine .inl (UInt8.toNat_inj.mp ?_)
      exact (toRat_eq_iff hpos _ _).mp hbuyer
  · rintro (hwei | hsame) b
    · rw [hchange, hworth _ hwei, hbase]
      have hzero : Decimal.toRat ⟨0, 8⟩ = 0 := by norm_num [Decimal.toRat]
      have hneg : Decimal.toRat ⟨0 - fill.baseSize.value, 8⟩ =
          0 - Decimal.toRat ⟨fill.baseSize.value, 8⟩ := by
        unfold Decimal.toRat
        push_cast
        ring
      by_cases hb : fill.buyer = b <;> by_cases hs : fill.seller = b
      · rw [if_pos hb, if_pos hs, if_pos hb, if_pos hs, sub_self, sub_self, hzero]
      · rw [if_pos hb, if_neg hs, if_pos hb, if_neg hs, sub_zero, sub_zero]
      · rw [if_neg hb, if_pos hs, if_neg hb, if_pos hs, hneg]
      · rw [if_neg hb, if_neg hs, if_neg hb, if_neg hs, sub_self, sub_self, hzero]
    · rw [hchange, hparties.mpr hsame, sub_self, sub_self]
      norm_num [quantity, Decimal.toRat]

/-- **The balance check.** Of a token with more than eight places it asks too little. -/
theorem coversSize_iff {size : Decimal} {s₁ : SpotEngineState} (hplaces : size.decimals = 8)
    (hsize : 0 ≤ size.value) (h : s.reserveBalance a k size = .ok (true, s₁)) :
    s.CoversSize a k token size ↔ token.weiDecimals.toNat ≤ 8 ∨
      ∃ available, (s.getBalance a k).available = .ok available ∧
        size.value * 10 ^ (token.weiDecimals.toNat - 8) ≤ available.value := by
  obtain ⟨available, havailable, h⟩ := bind_inv h
  split at h
  · cases (pair_inv h).1
  rename_i hnot
  -- the check compares raw amounts
  have hraw : size.value ≤ available.value := by
    have hle := Decimal.le_def.mp (Decimal.not_lt.mp hnot)
    omega
  have hcovers : s.CoversSize a k token size ↔
      size.value * 10 ^ token.weiDecimals.toNat ≤ available.value * 10 ^ 8 := by
    have hsizeq : size.toRat = Decimal.toRat ⟨size.value, 8⟩ := by rw [← hplaces]
    rw [← toRat_le_iff, ← hsizeq]
    constructor
    · rintro ⟨available', havailable', hle⟩
      obtain rfl := ok_unique havailable havailable'
      exact hle
    · intro hle
      exact ⟨available, havailable, hle⟩
  rw [hcovers]
  by_cases hwei : token.weiDecimals.toNat ≤ 8
  · refine iff_of_true ?_ (.inl hwei)
    calc size.value * 10 ^ token.weiDecimals.toNat
        ≤ size.value * 10 ^ 8 :=
          mul_le_mul_of_nonneg_left (pow_le_pow_right₀ (by norm_num) hwei) hsize
      _ ≤ available.value * 10 ^ 8 := mul_le_mul_of_nonneg_right hraw (by norm_num)
  · have hsplit : (10 : Int) ^ token.weiDecimals.toNat =
        10 ^ (token.weiDecimals.toNat - 8) * 10 ^ 8 := by
      rw [← pow_add]
      congr 1
      omega
    rw [hsplit, ← mul_assoc]
    constructor
    · intro hle
      exact .inr ⟨available, havailable, le_of_mul_le_mul_right hle (by norm_num)⟩
    · rintro (hle | ⟨available', havailable', hle⟩)
      · exact absurd hle hwei
      · obtain rfl := ok_unique havailable havailable'
        exact mul_le_mul_of_nonneg_right hle (by norm_num)

end Worth

end SpotEngineState

/-! ### Sizes as they arrive -/

theorem Decimal.fromStr_decimals {text : List Char} {d : Decimal}
    (h : Decimal.fromStr text = some d) : d.decimals = 8 := by
  have hfinish : ∀ {negative : Bool} {i : List Char} {f : Option (List Char)},
      Decimal.fromStrExact.finish priceDecimals negative i f = some d → d.decimals = 8 := by
    intro negative i f hf
    rw [finish_def] at hf
    obtain ⟨integerPart, -, hf⟩ := Option.bind_eq_some_iff.mp hf
    obtain ⟨decimalPart, -, hf⟩ := Option.bind_eq_some_iff.mp hf
    split at hf
    · rw [← Option.some.inj hf]
      rfl
    · cases hf
  unfold Decimal.fromStr Decimal.fromStrExact at h
  dsimp only at h
  split at h
  · exact hfinish h
  · exact hfinish h
  · cases h

/-- A size is read with eight places. -/
theorem OrderWire.toOrderRequest_size {w : OrderWire} {q : OrderRequest}
    (h : w.toOrderRequest = .ok q) : q.size.decimals = 8 := by
  obtain ⟨price, -, h⟩ := ok_of_bind h
  obtain ⟨size, hsize, h⟩ := ok_of_bind h
  obtain ⟨orderType, -, h⟩ := ok_of_bind h
  obtain ⟨trigger, -, h⟩ := ok_of_bind h
  cases h
  unfold OrderWire.parse at hsize
  split at hsize
  · cases hsize
  · rename_i d hd
    obtain rfl := Except.ok.inj hsize
    exact Decimal.fromStr_decimals hd

namespace SpotCall

open SpotEngineState

/-- Orders arrive through the transaction layer. -/
def FromWire : SpotCall → Prop
  | placeOrder _ m q _ => ∃ w : OrderWire, w.a = m ∧ w.toOrderRequest = .ok q
  | _ => True

/-- A state that such calls lead to from a balance sheet. -/
def Arrives (u : UnifiedState) (s : SpotEngineState) : Prop :=
  Run.Reaches step (fun _ call => call.FromWire) (.withUnifiedState u) s

variable {u : UnifiedState} {s s' : SpotEngineState}

/-- **Step.** -/
theorem step_scaled {call : SpotCall} (hs : s.Scaled) (hwire : call.FromWire)
    (h : call.step s = .ok s') : s'.Scaled := by
  cases call with
  | deployToken params deployer =>
    obtain ⟨⟨r, s₁⟩, h1, h⟩ := bind_inv h
    obtain rfl := pure_inv h
    exact hs.deployToken h1
  | share sheet =>
    obtain rfl := pure_inv h
    exact hs.only ⟨sheet, s.reserved, rfl⟩
  | placeOrder account market request timestamp =>
    obtain ⟨w, -, hw⟩ := hwire
    obtain ⟨⟨r, s₁⟩, h1, h⟩ := bind_inv h
    obtain rfl := pure_inv h
    exact hs.placeOrder (OrderWire.toOrderRequest_size hw) h1
  | cancelOrder account market orderId =>
    obtain ⟨⟨r, s₁⟩, h1, h⟩ := bind_inv h
    obtain rfl := pure_inv h
    exact hs.cancelOrder h1
  | cancelAllOrders account market =>
    obtain ⟨⟨r, s₁⟩, h1, h⟩ := bind_inv h
    obtain rfl := pure_inv h
    exact hs.cancelOrders h1

theorem scaled_withUnifiedState (u : UnifiedState) :
    SpotEngineState.Scaled (.withUnifiedState u) := by
  refine ⟨⟨by show (1 : TokenIndex) ≠ 0; decide, fun i t hi => ?_, fun m market hm => ?_,
    fun m market hm => ?_, fun m market hm => ?_⟩, fun m b hb => ?_⟩
  · simp only [SpotEngineState.withUnifiedState, FinMap.get_insert] at hi
    split at hi
    · rename_i heq
      rw [← heq]
      exact Nat.zero_lt_one
    · rw [FinMap.get_empty] at hi
      cases hi
  all_goals simp [SpotEngineState.maps, SpotEngineState.withUnifiedState] at *

/-- **Run.** -/
theorem Arrives.scaled (h : Arrives u s) : s.Scaled :=
  h.invariant (P := SpotEngineState.Scaled)
    (scaled_withUnifiedState u) fun _ _ _ hs hwire hstep => step_scaled hs hwire hstep

/-- What the loop of an order that arrives records, and what applying it moves. -/
theorem Arrives.applies (hs : Arrives u s) {a : AccountAddress} {m : SpotMarketId}
    {w : OrderWire} {q : OrderRequest} {time : Timestamp} {market : SpotMarket}
    {fill : SpotFill} {t t' : SpotEngineState} (hw : w.toOrderRequest = .ok q)
    (hmarket : s.getMarket m = some market) (h : s.Applies a m q time fill t t') :
    (fill.baseSize.decimals = 8 ∧ 0 < fill.baseSize.value) ∧
      BaseMoved fill market.config.baseToken t.unifiedState t'.unifiedState := by
  obtain ⟨market', token, reserve, s₁, book, x, hmarket', hvalid, haccepted, hbook, hx, hturn⟩ := h
  obtain rfl := Option.some.inj (hmarket.symm.trans hmarket')
  obtain ⟨hlisted, hbooks⟩ := hs.scaled.only (reserveBalance_only haccepted.2)
  have hplaces := OrderWire.toOrderRequest_size hw
  have hpos := validateOrder_pos (hs.scaled.listed.lot m market hmarket) hvalid
  have hloop : EightPlaces x := EightPlaces.matchOrder
    ⟨⟨hplaces, hpos.le⟩, hbooks m book hbook, by simp⟩ hx
  obtain ⟨hmem, happly⟩ := hturn.mem
  refine ⟨hloop.fills fill hmem, ?_⟩
  rcases applyFill_cases happly with ⟨-, err, hr⟩ | ⟨t₁, -, -, hmodify, hmoved⟩
  · cases hr
  obtain ⟨hquote, hbase⟩ := hs.scaled.listed.quote m market hmarket
  have hsheet : t'.unifiedState = t₁.unifiedState := by
    unfold modifyMarket at hmodify
    split at hmodify
    · rw [← pure_inv hmodify]
    · obtain ⟨state, -, hmodify⟩ := bind_inv hmodify
      rw [← pure_inv hmodify]
  rw [hsheet]
  exact hmoved (by rw [hquote]; exact hbase.symm)

/-- **Alignment.** The base token of a market is listed. An accepted sell is covered exactly
when the token has at most eight places, or the account has its raw size available on the places
of the token; and a fill delivers its base size exactly when the token has eight places, or
buyer and seller are one. -/
theorem Arrives.aligned_iff (hs : Arrives u s) {a : AccountAddress} {m : SpotMarketId}
    {w : OrderWire} {q : OrderRequest} {time : Timestamp} {market : SpotMarket}
    (hw : w.toOrderRequest = .ok q) (hmarket : s.getMarket m = some market) :
    ∃ token, s.getToken market.config.baseToken = some token ∧
      (q.side = .sell → ∀ k reserve s₁, validateOrder q market.config = .ok (.ok ()) →
        s.Accepted a market.config q k reserve s₁ →
        (s.CoversSize a market.config.baseToken token q.size ↔ token.weiDecimals.toNat ≤ 8 ∨
          ∃ available, (s.getBalance a market.config.baseToken).available = .ok available ∧
            q.size.value * 10 ^ (token.weiDecimals.toNat - 8) ≤ available.value)) ∧
      ∀ fill t t', s.Applies a m q time fill t t' →
        (Delivers token market.config.baseToken fill t t' ↔
          token.weiDecimals = 8 ∨ fill.maker = fill.taker) := by
  obtain ⟨token, htoken, -⟩ := hs.scaled.listed.base m market hmarket
  refine ⟨token, htoken, ?_, fun fill t t' happlies => ?_⟩
  · rintro hside k reserve s₁ hvalid ⟨hreserve, htaken⟩
    have hpos := validateOrder_pos (hs.scaled.listed.lot m market hmarket) hvalid
    unfold reserveFor at hreserve
    rw [hside] at hreserve
    obtain ⟨rfl, rfl⟩ := pair_inv hreserve
    exact coversSize_iff (OrderWire.toOrderRequest_size hw) hpos.le htaken
  · obtain ⟨hsize, hmoved⟩ := hs.applies hw hmarket happlies
    exact delivers_iff hsize hmoved

/-- A little of a token of the given places, all of it with account seven. -/
def littleOf (weiDecimals : UInt8) : SpotTokenDeployParams :=
  ⟨"TEST", weiDecimals, 2, ⟨200000000, weiDecimals.toNat⟩, []⟩

/-- An order for one at a price of one, as it arrives. -/
def oneAtOne (b : Bool) : OrderWire := ⟨128, b, "1", "1", false, .limit "Gtc", none⟩

theorem oneAtOne_sell : (oneAtOne false).toOrderRequest = .ok (atOne 128 .sell 100000000) := by
  decide +kernel

theorem oneAtOne_buy : (oneAtOne true).toOrderRequest = .ok (atOne 128 .buy 100000000) := by
  decide +kernel

/-- The token is deployed, and account seven sells one to account eight. -/
def saleRun (weiDecimals : UInt8) : Exec (SpotEngineState × Except Error (Order × List SpotFill) ×
    SpotEngineState × Except Error (Order × List SpotFill)) := do
  let s ← step (deployToken (littleOf weiDecimals) 7) (.withUnifiedState fiftyOfEight)
  let (sold, s₁) ← s.placeOrder 7 128 (atOne 128 .sell 100000000) 1
  let (bought, _) ← s₁.placeOrder 8 128 (atOne 128 .buy 100000000) 2
  return (s, sold, s₁, bought)

variable {weiDecimals : UInt8} {sold bought : Except Error (Order × List SpotFill)}

theorem saleRun_eq_ok {s₁ : SpotEngineState} (h : saleRun weiDecimals = .ok (s, sold, s₁, bought)) :
    Arrives fiftyOfEight s ∧ s.placeOrder 7 128 (atOne 128 .sell 100000000) 1 = .ok (sold, s₁) ∧
      Arrives fiftyOfEight s₁ ∧
      ∃ s₂, s₁.placeOrder 8 128 (atOne 128 .buy 100000000) 2 = .ok (bought, s₂) := by
  obtain ⟨s', hs, h⟩ := bind_inv h
  obtain ⟨⟨r, s₁'⟩, hsold, h⟩ := bind_inv h
  obtain ⟨⟨r', s₂⟩, hbought, h⟩ := bind_inv h
  cases pure_inv h
  have harrives : Arrives fiftyOfEight s :=
    .tail (deployToken (littleOf weiDecimals) 7) .refl trivial hs
  refine ⟨harrives, hsold, ?_, s₂, hbought⟩
  refine .tail (placeOrder 7 128 (atOne 128 .sell 100000000) 1) harrives
    ⟨oneAtOne false, rfl, oneAtOne_sell⟩ ?_
  show (do return (← s.placeOrder 7 128 (atOne 128 .sell 100000000) 1).2) = _
  rw [hsold]
  rfl

/-- Both orders are placed, and the one fill is between the two accounts. -/
def Sale (weiDecimals : UInt8) (s : SpotEngineState) (sold : Except Error (Order × List SpotFill))
    (s₁ : SpotEngineState) (bought : Except Error (Order × List SpotFill)) : Prop :=
  ((s.getBalance 7 1).available.toOption = some ⟨200000000, weiDecimals.toNat⟩ ∧
    sold.isOk = true) ∧
  ((s.getMarket 128).map (·.config.baseToken) = some 1 ∧
    (s₁.getMarket 128).map (·.config.baseToken) = some 1) ∧
  ((s.getToken 1).map (·.weiDecimals) = some weiDecimals ∧
    (s₁.getToken 1).map (·.weiDecimals) = some weiDecimals) ∧
  (bought.toOption.map fun y => y.2.map fun fill => (fill.maker, fill.taker)) = some [(7, 8)]

instance (weiDecimals : UInt8) (s : SpotEngineState) (sold : Except Error (Order × List SpotFill))
    (s₁ : SpotEngineState) (bought : Except Error (Order × List SpotFill)) :
    Decidable (Sale weiDecimals s sold s₁ bought) := by
  unfold Sale
  infer_instance

theorem Sale.fill {s₁ s₂ : SpotEngineState} (h : Sale weiDecimals s sold s₁ bought)
    (hbought : s₁.placeOrder 8 128 (atOne 128 .buy 100000000) 2 = .ok (bought, s₂)) :
    ∃ fill t t', s₁.Applies 8 128 (atOne 128 .buy 100000000) 2 fill t t' ∧
      fill.maker = 7 ∧ fill.taker = 8 := by
  obtain ⟨⟨order, fills⟩, hr, hfills⟩ := Option.map_eq_some_iff.mp h.2.2.2
  cases bought with
  | error err => cases hr
  | ok y =>
    obtain rfl := Option.some.inj hr
    obtain ⟨fill, hmem, hparties⟩ := List.map_eq_singleton_iff.mp hfills
    obtain rfl : fills = [fill] := hmem
    obtain ⟨t, t', happlies⟩ := placeOrder_applies hbought (.head _)
    obtain ⟨hmaker, htaker⟩ := Prod.mk.inj hparties
    exact ⟨fill, t, t', happlies, hmaker, htaker⟩

/-- On eight places the fill delivers. -/
theorem aligned_eightPlaces : ∃ s token fill t t', Arrives fiftyOfEight s ∧
    s.Applies 8 128 (atOne 128 .buy 100000000) 2 fill t t' ∧ s.getToken 1 = some token ∧
    fill.maker ≠ fill.taker ∧ Delivers token 1 fill t t' := by
  obtain ⟨⟨s, sold, s₁, bought⟩, hrun, htest⟩ := exists_of_test (x := saleRun 8)
    (p := fun x => decide (Sale 8 x.1 x.2.1 x.2.2.1 x.2.2.2)) (by decide +kernel)
  have hsale := of_decide_eq_true htest
  obtain ⟨-, -, harrives, s₂, hbought⟩ := saleRun_eq_ok hrun
  obtain ⟨fill, t, t', happlies, hmaker, htaker⟩ := hsale.fill hbought
  obtain ⟨market, hmarket, hbase⟩ := Option.map_eq_some_iff.mp hsale.2.1.2
  obtain ⟨token, htoken, -, hfills⟩ :=
    @Arrives.aligned_iff _ _ harrives 8 _ _ _ 2 _ oneAtOne_buy hmarket
  rw [hbase] at htoken hfills
  refine ⟨s₁, token, fill, t, t', harrives, happlies, htoken, ?_, ?_⟩
  · rw [hmaker, htaker]
    decide
  · have hwei := hsale.2.2.1.2
    rw [htoken] at hwei
    exact (hfills fill t t' happlies).mpr (.inl (Option.some.inj hwei))

/-- On eighteen places an account sells one token that it does not have, and the fill moves a
ten-billionth of it. -/
theorem one_is_not_one :
    (∃ s token market k reserve s', Arrives fiftyOfEight s ∧ s.getToken 1 = some token ∧
      s.getMarket 128 = some market ∧ market.config.baseToken = 1 ∧
      s.Accepted 7 market.config (atOne 128 .sell 100000000) k reserve s' ∧
      ¬ s.CoversSize 7 1 token ⟨100000000, 8⟩) ∧
    ∃ s token fill t t', Arrives fiftyOfEight s ∧ s.getToken 1 = some token ∧
      s.Applies 8 128 (atOne 128 .buy 100000000) 2 fill t t' ∧ ¬ Delivers token 1 fill t t' := by
  obtain ⟨⟨s, sold, s₁, bought⟩, hrun, htest⟩ := exists_of_test (x := saleRun 18)
    (p := fun x => decide (Sale 18 x.1 x.2.1 x.2.2.1 x.2.2.2)) (by decide +kernel)
  have hsale := of_decide_eq_true htest
  obtain ⟨harrives, hsold, harrives₁, s₂, hbought⟩ := saleRun_eq_ok hrun
  have hfill := hsale.fill hbought
  obtain ⟨⟨havailable, hok⟩, ⟨hbase, hbase₁⟩, ⟨htoken, htoken₁⟩, -⟩ := hsale
  constructor
  · obtain ⟨token, htoken, hwei⟩ := Option.map_eq_some_iff.mp htoken
    rcases placeOrder_cases hsold with
      ⟨-, err, rfl⟩ | ⟨s', market, k, reserve, hmarket, -, hreserve, htaken, -⟩
    · cases hok
    rw [hmarket] at hbase
    refine ⟨s, token, market, k, reserve, s', harrives, htoken, hmarket, Option.some.inj hbase,
      ⟨hreserve, htaken⟩, ?_⟩
    rintro ⟨available, hcovers, hle⟩
    rw [hcovers] at havailable
    obtain rfl := Option.some.inj havailable
    unfold quantity at hle
    rw [hwei, toRat_le_iff] at hle
    exact absurd hle (by decide)
  · obtain ⟨token, htoken, hwei⟩ := Option.map_eq_some_iff.mp htoken₁
    obtain ⟨fill, t, t', happlies, hmaker, htaker⟩ := hfill
    obtain ⟨market, hmarket, hbase⟩ := Option.map_eq_some_iff.mp hbase₁
    obtain ⟨hsize, hmoved⟩ := harrives₁.applies oneAtOne_buy hmarket happlies
    rw [hbase] at hmoved
    refine ⟨s₁, token, fill, t, t', harrives₁, htoken, happlies, fun hdelivers => ?_⟩
    rcases (delivers_iff hsize hmoved).mp hdelivers with h8 | hsame
    · rw [hwei] at h8
      cases h8
    · rw [hmaker, htaker] at hsame
      cases hsame

end SpotCall

end Hypercore
