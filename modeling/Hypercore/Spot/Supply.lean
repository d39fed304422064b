import Hypercore.Primitives.Supply
import Hypercore.Spot.Alignment
/-!
# Hypercore.Spot.Supply

What spot trading does to the supply of tokens.

A fill has four legs. The base legs cancel out, and of the quote legs the fees are left over. A
fill whose buyer cannot pay stops before the first leg that is made; one whose seller cannot
deliver stops with the base size credited and not debited (`Delivered` excludes this). So trading
never destroys a base token, and makes some only where a seller fails to deliver.
-/

namespace Hypercore

open Exec Int128

namespace SpotEngineState

/-! ### Sheets -/

/-- Two engines on the same balance sheet. -/
def SameSheet (s s' : SpotEngineState) : Prop := s'.unifiedState = s.unifiedState

section Sheet

variable {s s' : SpotEngineState}

theorem SameSheet.supply (h : SameSheet s s') (k : TokenIndex) :
    s'.unifiedState.supply k = s.unifiedState.supply k := by
  unfold SameSheet at h
  rw [h]

theorem SameSheet.foldl {ι : Type} {f : SpotEngineState → ι → SpotEngineState}
    (hf : ∀ s i, SameSheet s (f s i)) (is : List ι) (s : SpotEngineState) :
    SameSheet s (is.foldl f s) := by
  induction is generalizing s with
  | nil => rfl
  | cons i is ih => exact (ih (f s i)).trans (hf s i)

theorem removeOrder_sheet (s : SpotEngineState) (m : SpotMarketId) (id : OrderId) :
    SameSheet s (s.removeOrder m id) := by
  unfold SpotEngineState.removeOrder
  split
  · dsimp only
    split <;> split <;> rfl
  · rfl

theorem updateOrderRemaining_sheet (s : SpotEngineState) (m : SpotMarketId) (id : OrderId)
    (r : Decimal) : SameSheet s (s.updateOrderRemaining m id r) := by
  unfold SpotEngineState.updateOrderRemaining
  split <;> rfl

theorem syncMakers_sheet (s : SpotEngineState) (m : SpotMarketId) (x : Matched) :
    SameSheet s (s.syncMakers m x) :=
  (SameSheet.foldl (fun s (p : OrderId × Decimal) =>
    updateOrderRemaining_sheet s m p.1 p.2) _ _).trans
      (SameSheet.foldl (fun s id => removeOrder_sheet s m id) _ _)

theorem addOrder_sheet {o : Order} (h : s.addOrder o = .ok s') : SameSheet s s' := by
  obtain ⟨_, _, _, rfl⟩ := addOrder_frame h
  rfl

theorem reserveBalance_sheet {a : AccountAddress} {k : TokenIndex} {x : Decimal} {done : Bool}
    (h : s.reserveBalance a k x = .ok (done, s')) : SameSheet s s' := by
  unfold reserveBalance at h
  obtain ⟨available, -, h⟩ := bind_inv h
  split at h
  · obtain ⟨-, rfl⟩ := pair_inv h
    rfl
  · obtain ⟨reserved, -, h⟩ := bind_inv h
    obtain ⟨-, rfl⟩ := pair_inv h
    rfl

theorem settleRemaining_sheet {o : Order} {token : TokenIndex} {reserve : Decimal}
    {fills : List SpotFill} (h : s.settleRemaining o token reserve fills = .ok s') :
    SameSheet s s' := by
  obtain ⟨filled, -, h⟩ := bind_inv h
  obtain ⟨left, -, h⟩ := bind_inv h
  split at h
  · exact addOrder_sheet h
  · split at h
    · exact releaseBalance_sheet h
    · obtain rfl := pure_inv h
      rfl

theorem modifyMarket_sheet {m : SpotMarketId} {f : SpotMarketState → Exec SpotMarketState}
    (h : s.modifyMarket m f = .ok s') : SameSheet s s' := by
  unfold modifyMarket at h
  split at h
  · obtain rfl := pure_inv h
    rfl
  · obtain ⟨state, -, h⟩ := bind_inv h
    obtain rfl := pure_inv h
    rfl

theorem cancelOrder_sheet {a : AccountAddress} {m : SpotMarketId} {id : OrderId}
    {r : Except Error Order} (h : s.cancelOrder a m id = .ok (r, s')) : SameSheet s s' := by
  unfold cancelOrder at h
  split at h
  · obtain ⟨-, rfl⟩ := pair_inv h
    rfl
  · split at h
    · obtain ⟨-, rfl⟩ := pair_inv h
      rfl
    · split at h
      · obtain ⟨-, rfl⟩ := pair_inv h
        rfl
      · obtain ⟨⟨token, amount⟩, -, h⟩ := bind_inv h
        obtain ⟨s₁, h1, h⟩ := bind_inv h
        obtain ⟨-, rfl⟩ := pair_inv h
        exact (removeOrder_sheet s₁ m id).trans (releaseBalance_sheet h1)

theorem cancelOrders_sheet {a : AccountAddress} {m : SpotMarketId} {os canceled : List Order}
    (h : cancelOrders a m os s = .ok (canceled, s')) : SameSheet s s' :=
  cancelOrders_rule (P := SameSheet s) (fun hs hone => (cancelOrder_sheet hone).trans hs) rfl h

/-- A transfer between the views of an account keeps every supply; refused, it changes nothing. -/
theorem viewTransfer_supply {a : AccountAddress} {token : TokenIndex} {x : Decimal} {toEvm : Bool}
    {r : Except Error Unit} (h : s.viewTransfer a token x toEvm = .ok (r, s')) :
    (∀ k, s'.unifiedState.supply k = s.unifiedState.supply k) ∧
      ((∃ err, r = .error err) → s' = s) := by
  have hmoved : s' = s ∨ ∃ r₁ u, s.unifiedState.ViewsMoved u a token r₁ ∧
      s' = { s with unifiedState := u } ∧ ((∃ err, r = .error err) → ∃ err, r₁ = .error err) := by
    unfold viewTransfer at h
    split at h
    · obtain ⟨available, -, h⟩ := bind_inv h
      split at h
      · exact .inl (pair_inv h).2.symm
      · obtain ⟨⟨r₁, u⟩, hu, h⟩ := bind_inv h
        obtain ⟨rfl, rfl⟩ := pair_inv h
        exact .inr ⟨r₁, u, UnifiedState.transferToEvmView_moves hu, rfl,
          by cases r₁ <;> simp [Except.mapError]⟩
    · obtain ⟨⟨r₁, u⟩, hu, h⟩ := bind_inv h
      obtain ⟨rfl, rfl⟩ := pair_inv h
      exact .inr ⟨r₁, u, UnifiedState.transferToCoreView_moves hu, rfl,
          by cases r₁ <;> simp [Except.mapError]⟩
  rcases hmoved with rfl | ⟨r₁, u, hu, rfl, hr⟩
  · exact ⟨fun k => rfl, fun _ => rfl⟩
  · refine ⟨hu.supply, fun herr => ?_⟩
    obtain ⟨err, rfl⟩ := hr herr
    rw [hu.refused]

end Sheet

/-! ### Fills -/

/-- Maker and taker fee of a fill, on the USDC scale. -/
def fillFees (fill : SpotFill) : Exec Int := do
  let makerFee ← fill.makerFee.toDecimals 6
  let takerFee ← fill.takerFee.toDecimals 6
  return makerFee.value + takerFee.value

/-- What is left over of the quote legs. -/
def Legs.fees (l : Legs) : Int := l.quoteWithFee.value - (l.quote - l.sellerFee)

/-- A fill is applied, unless its buyer cannot pay. -/
def Delivered (s : SpotEngineState) (config : SpotMarketConfig) (fill : SpotFill) : Prop :=
  ∀ err s', s.applyFill config fill = .ok (.error err, s') → ∀ l, legs fill = .ok l →
    ¬ s.unifiedState.Covers l.buyer config.quoteToken l.quoteWithFee

/-- The fills of a list are delivered, each in the state that those before it leave. -/
def AllDelivered (config : SpotMarketConfig) : List SpotFill → SpotEngineState → Prop
  | [], _ => True
  | fill :: fills, s => Delivered s config fill ∧
      ∀ s', s.applyFill config fill = .ok (.ok (), s') → AllDelivered config fills s'

/-- Every fill of an order is delivered. -/
def OrderDelivers (s : SpotEngineState) (a : AccountAddress) (m : SpotMarketId)
    (q : OrderRequest) (time : Timestamp) : Prop :=
  ∀ market token reserve s₁ book x, s.getMarket m = some market →
    Accepted s a market.config q token reserve s₁ → s₁.orderbooks[m]? = some book →
    matchOrder m market.config (turns (.new s.nextOrderId a q time) book)
      ⟨.new s.nextOrderId a q time, book, [], [], []⟩ = .ok x →
    AllDelivered market.config x.fills
      (syncMakers ({ s₁ with nextOrderId := s.nextOrderId + 1 }.setOrderbook m x.book) m x)

section Fill

variable {s s' : SpotEngineState} {config : SpotMarketConfig} {fill : SpotFill}
  {fills : List SpotFill} {k : TokenIndex}
variable {token : TokenIndex} {x : Decimal} {r : Except Error Unit}

theorem creditBalance_supply {a : AccountAddress} (h : s.creditBalance a token x = .ok s')
    (k : TokenIndex) :
    s'.unifiedState.supply k = s.unifiedState.supply k + if token = k then x.value else 0 := by
  obtain ⟨u, hu, h⟩ := bind_inv h
  obtain rfl := pure_inv h
  exact UnifiedState.credit_supply hu k

theorem debitBalance_paid {a : AccountAddress} (h : s.debitBalance a token x = .ok (true, s'))
    (k : TokenIndex) :
    s'.unifiedState.supply k = s.unifiedState.supply k - if token = k then x.value else 0 := by
  obtain ⟨⟨done, u⟩, hu, h⟩ := bind_inv h
  obtain ⟨rfl, rfl⟩ := pair_inv h
  exact UnifiedState.debitCore_paid hu k

theorem debitBalance_refused {a : AccountAddress} (h : s.debitBalance a token x = .ok (false, s')) :
    SameSheet s s' := by
  obtain ⟨⟨done, u⟩, hu, h⟩ := bind_inv h
  obtain ⟨rfl, rfl⟩ := pair_inv h
  exact UnifiedState.debitCore_refused hu

/-- **Supply.** A fill fails without moving a supply, or with its buyer paid for and the seller
not charged; or it is applied, and of its legs the fees are left over. -/
theorem applyFill_supply {l : Legs} (hl : legs fill = .ok l)
    (h : s.applyFill config fill = .ok (r, s')) :
    ((∃ err, r = .error err) ∧ (SameSheet s s' ∨
        s.unifiedState.Covers l.buyer config.quoteToken l.quoteWithFee ∧
          ∀ k, s'.unifiedState.supply k = s.unifiedState.supply k -
            (if config.quoteToken = k then l.quoteWithFee.value else 0) +
            if config.baseToken = k then fill.baseSize.value else 0)) ∨
      (r = .ok () ∧ ∀ k, s'.unifiedState.supply k = s.unifiedState.supply k -
        if config.quoteToken = k then l.fees else 0) := by
  obtain ⟨l', hl', h⟩ := bind_inv h
  obtain rfl := ok_unique hl hl'
  obtain ⟨s₁, h1, h⟩ := bind_inv h
  obtain ⟨s₂, h2, h⟩ := bind_inv h
  have hreleased : SameSheet s s₂ := (releaseBalance_sheet h2).trans (releaseBalance_sheet h1)
  obtain ⟨⟨paid, s₃⟩, h3, h⟩ := bind_inv h
  cases paid with
  | false =>
    obtain ⟨rfl, rfl⟩ := pair_inv h
    exact .inl ⟨⟨_, rfl⟩, .inl ((debitBalance_refused h3).trans hreleased)⟩
  | true =>
    have hcovers : s.unifiedState.Covers l.buyer config.quoteToken l.quoteWithFee := by
      obtain ⟨⟨done, u⟩, hu, h3⟩ := bind_inv h3
      obtain ⟨rfl, rfl⟩ := pair_inv h3
      unfold SameSheet at hreleased
      rw [← hreleased]
      rcases UnifiedState.debitCore_cases hu with ⟨hfalse, -⟩ | ⟨-, hcov, -⟩
      · cases hfalse
      · exact hcov
    obtain ⟨s₄, h4, h⟩ := bind_inv h
    obtain ⟨receives, hreceives, h⟩ := bind_inv h
    obtain ⟨-, rfl⟩ := i128_eq_ok.mp hreceives
    obtain ⟨⟨delivered, s₅⟩, h5, h⟩ := bind_inv h
    cases delivered with
    | false =>
      obtain ⟨rfl, rfl⟩ := pair_inv h
      refine .inl ⟨⟨_, rfl⟩, .inr ⟨hcovers, fun k => ?_⟩⟩
      rw [(debitBalance_refused h5).supply, creditBalance_supply h4, debitBalance_paid h3,
        hreleased.supply]
    | true =>
      obtain ⟨s₆, h6, h⟩ := bind_inv h
      obtain ⟨s₇, h7, h⟩ := bind_inv h
      obtain ⟨rfl, rfl⟩ := pair_inv h
      refine .inr ⟨rfl, fun k => ?_⟩
      rw [(modifyMarket_sheet h7).supply, creditBalance_supply h6, debitBalance_paid h5,
        creditBalance_supply h4, debitBalance_paid h3, hreleased.supply]
      unfold Legs.fees
      dsimp only
      split <;> split <;> omega

/-- What is left over is both fees, whoever buys. -/
theorem legs_fees {l : Legs} (h : legs fill = .ok l) : fillFees fill = .ok l.fees := by
  unfold legs at h
  cases hside : fill.isTakerBuy <;> rw [hside] at h <;>
    obtain ⟨quote, -, h⟩ := bind_inv h <;>
    obtain ⟨buyerFee, hbuyer, h⟩ := bind_inv h <;>
    obtain ⟨sellerFee, hseller, h⟩ := bind_inv h <;>
    obtain ⟨total, htotal, h⟩ := bind_inv h <;>
    obtain ⟨-, rfl⟩ := i128_eq_ok.mp htotal <;>
    obtain rfl := pure_inv h
  case false =>
    refine bind_eq_ok.mpr ⟨_, hbuyer, bind_eq_ok.mpr ⟨_, hseller, congrArg Except.ok ?_⟩⟩
    unfold Legs.fees
    dsimp only
    omega
  case true =>
    refine bind_eq_ok.mpr ⟨_, hseller, bind_eq_ok.mpr ⟨_, hbuyer, congrArg Except.ok ?_⟩⟩
    unfold Legs.fees
    dsimp only
    omega

theorem applyFill_legs (h : s.applyFill config fill = .ok (r, s')) :
    ∃ l, legs fill = .ok l := by
  obtain ⟨l, hl, -⟩ := bind_inv h
  exact ⟨l, hl⟩

/-- Delivered fills keep the supply of every token but the quote token. -/
theorem applyFills_supply (hk : config.quoteToken ≠ k) (hdelivered : AllDelivered config fills s)
    (h : applyFills config fills s = .ok (r, s')) :
    s'.unifiedState.supply k = s.unifiedState.supply k := by
  induction fills generalizing s with
  | nil =>
    obtain ⟨-, rfl⟩ := pair_inv h
    rfl
  | cons fill fills ih =>
    obtain ⟨⟨r₁, s₁⟩, h1, h⟩ := bind_inv h
    obtain ⟨hfill, hrest⟩ := hdelivered
    obtain ⟨l, hl⟩ := applyFill_legs h1
    rcases applyFill_supply hl h1 with ⟨⟨err, rfl⟩, hkept⟩ | ⟨rfl, hsupply⟩
    · obtain ⟨-, rfl⟩ := pair_inv h
      rcases hkept with hsame | ⟨hcovers, -⟩
      · exact hsame.supply k
      · exact absurd hcovers (hfill err s₁ h1 l hl)
    · have hone := hsupply k
      rw [if_neg hk, sub_zero] at hone
      exact (ih (hrest s₁ h1) h).trans hone

/-- Fills destroy nothing but quote tokens. -/
theorem applyFills_grows (hk : config.quoteToken ≠ k)
    (hpos : ∀ fill ∈ fills, 0 < fill.baseSize.value) (h : applyFills config fills s = .ok (r, s')) :
    s.unifiedState.supply k ≤ s'.unifiedState.supply k := by
  induction fills generalizing s with
  | nil =>
    obtain ⟨-, rfl⟩ := pair_inv h
    exact le_rfl
  | cons fill fills ih =>
    obtain ⟨⟨r₁, s₁⟩, h1, h⟩ := bind_inv h
    have hbase := hpos fill (.head _)
    obtain ⟨l, hl⟩ := applyFill_legs h1
    rcases applyFill_supply hl h1 with ⟨⟨err, rfl⟩, hkept⟩ | ⟨rfl, hsupply⟩
    · obtain ⟨-, rfl⟩ := pair_inv h
      rcases hkept with hsame | ⟨-, hsupply⟩
      · exact (hsame.supply k).ge
      · rw [hsupply, if_neg hk]
        split <;> omega
    · have hone := hsupply k
      rw [if_neg hk, sub_zero] at hone
      exact hone.ge.trans (ih (fun f hf => hpos f (.tail _ hf)) h)

/-- The fees of a list of fills, on the USDC scale. -/
def feesOf : List SpotFill → Exec Int
  | [] => return 0
  | fill :: fills => do
    let fees ← fillFees fill
    let rest ← feesOf fills
    return fees + rest

/-- When all fills are applied, exactly the fees are gone. -/
theorem applyFills_fees (h : applyFills config fills s = .ok (.ok (), s')) :
    ∃ fees, feesOf fills = .ok fees ∧ ∀ k, s'.unifiedState.supply k =
      s.unifiedState.supply k - if config.quoteToken = k then fees else 0 := by
  induction fills generalizing s with
  | nil =>
    obtain ⟨-, rfl⟩ := pair_inv h
    exact ⟨0, rfl, fun k => by simp⟩
  | cons fill fills ih =>
    obtain ⟨⟨r₁, s₁⟩, h1, h⟩ := bind_inv h
    obtain ⟨l, hl⟩ := applyFill_legs h1
    rcases applyFill_supply hl h1 with ⟨⟨err, rfl⟩, -⟩ | ⟨rfl, hsupply⟩
    · cases (pair_inv h).1
    · obtain ⟨fees, hfees, hrest⟩ := ih h
      refine ⟨l.fees + fees, bind_eq_ok.mpr ⟨_, legs_fees hl, bind_eq_ok.mpr ⟨fees, hfees, rfl⟩⟩,
        fun k => ?_⟩
      rw [hrest, hsupply]
      split <;> omega

/-- Fills that were all applied were delivered. -/
theorem allDelivered_of_applied (h : applyFills config fills s = .ok (.ok (), s')) :
    AllDelivered config fills s := by
  induction fills generalizing s with
  | nil => trivial
  | cons fill fills ih =>
    obtain ⟨⟨r₁, s₁⟩, h1, h⟩ := bind_inv h
    cases r₁ with
    | error err => cases (pair_inv h).1
    | ok u =>
      refine ⟨fun err s₂ h2 => ?_, fun s₂ h2 => ?_⟩
      · cases ok_unique h1 h2
      · cases ok_unique h1 h2
        exact ih h

end Fill

/-! ### Orders -/

section Order

variable {s s' : SpotEngineState} {a : AccountAddress} {m : SpotMarketId} {q : OrderRequest}
  {time : Timestamp} {k : TokenIndex}

/-- Taking an id and matching leave the sheet alone. -/
theorem matched_sheet (s : SpotEngineState) (n : OrderId) (m : SpotMarketId) (x : Matched) :
    SameSheet s (syncMakers ({ s with nextOrderId := n }.setOrderbook m x.book) m x) := by
  have hset : SameSheet s ({ s with nextOrderId := n }.setOrderbook m x.book) := rfl
  exact (syncMakers_sheet _ m x).trans hset

variable {r : Except Error (Order × List SpotFill)}

/-- An order that is not matched leaves the sheet alone; else its fills are applied. -/
theorem placeOrder_sheet (h : s.placeOrder a m q time = .ok (r, s')) :
    (SameSheet s s' ∧ ∃ err, r = .error err) ∨
      ∃ market token reserve s₁ book x paid s₂,
        s.getMarket m = some market ∧ validateOrder q market.config = .ok (.ok ()) ∧
        Accepted s a market.config q token reserve s₁ ∧ s₁.orderbooks[m]? = some book ∧
        matchOrder m market.config (turns (.new s.nextOrderId a q time) book)
          ⟨.new s.nextOrderId a q time, book, [], [], []⟩ = .ok x ∧
        applyFills market.config x.fills (syncMakers
          ({ s₁ with nextOrderId := s.nextOrderId + 1 }.setOrderbook m x.book) m x) =
            .ok (paid, s₂) ∧ SameSheet s₁ s ∧ SameSheet s₂ s' ∧
        ((∃ err, r = .error err) ∨ paid = .ok () ∧ r = .ok (x.remaining, x.fills)) := by
  rcases placeOrder_cases h with ⟨rfl, herr⟩ | ⟨s₁, market, token, reserve, hmarket, hvalid,
    hreserve, h1, hexec⟩
  · exact .inl ⟨rfl, herr⟩
  have hsheet := reserveBalance_sheet h1
  rcases executeOrder_cases hexec with ⟨rfl, err, rfl⟩ | ⟨book, x, paid, s₂, hx, hend⟩
  · exact .inl ⟨hsheet, err, rfl⟩
  refine .inr ⟨market, token, reserve, s₁, book, x, paid, s₂, hmarket, hvalid, ⟨hreserve, h1⟩,
    hx.book_eq, hx.loop, hx.applied, hsheet.symm, ?_⟩
  rcases hend with ⟨rfl, herr⟩ | ⟨hpaid, hr, hsettle⟩
  · exact ⟨rfl, .inl herr⟩
  · exact ⟨settleRemaining_sheet hsettle, .inr ⟨hpaid, hr⟩⟩

/-- An order whose fills are delivered keeps the supply of every token but the quote token. -/
theorem placeOrder_supply
    (hquote : ∀ market, s.getMarket m = some market → market.config.quoteToken ≠ k)
    (hdelivers : s.OrderDelivers a m q time) (h : s.placeOrder a m q time = .ok (r, s')) :
    s'.unifiedState.supply k = s.unifiedState.supply k := by
  rcases placeOrder_sheet h with ⟨hsame, -⟩ | ⟨market, token, reserve, s₁, book, x, paid, s₂,
    hmarket, -, haccepted, hbook, hx, happly, hbefore, hafter, -⟩
  · exact hsame.supply k
  · have hfills := applyFills_supply (hquote market hmarket)
      (hdelivers market token reserve s₁ book x hmarket haccepted hbook hx) happly
    rw [hafter.supply, hfills, (matched_sheet _ _ m x).supply, hbefore.supply]

/-- An order that is accepted is delivered: the loop and the fills are the ones it ran. -/
theorem orderDelivers_of_accepted {y : Order × List SpotFill}
    (h : s.placeOrder a m q time = .ok (.ok y, s')) : s.OrderDelivers a m q time := by
  rcases placeOrder_sheet h with ⟨-, err, hr⟩ | ⟨market, token, reserve, s₁, book, x, paid, s₂,
    hmarket, -, haccepted, hbook, hx, happly, -, -, ⟨err, hr⟩ | ⟨rfl, -⟩⟩
  · cases hr
  · cases hr
  intro market' token' reserve' s₁' book' x' hmarket' haccepted' hbook' hx'
  obtain rfl := Option.some.inj (hmarket.symm.trans hmarket')
  cases ok_unique haccepted.1 haccepted'.1
  cases ok_unique haccepted.2 haccepted'.2
  obtain rfl := Option.some.inj (hbook.symm.trans hbook')
  obtain rfl := ok_unique hx hx'
  exact allDelivered_of_applied happly

/-- An order of eight places destroys nothing but quote tokens. -/
theorem placeOrder_grows (hs : s.Scaled) (hq : q.size.decimals = 8)
    (hquote : ∀ market, s.getMarket m = some market → market.config.quoteToken ≠ k)
    (h : s.placeOrder a m q time = .ok (r, s')) :
    s.unifiedState.supply k ≤ s'.unifiedState.supply k := by
  rcases placeOrder_sheet h with ⟨hsame, -⟩ | ⟨market, token, reserve, s₁, book, x, paid, s₂,
    hmarket, hvalid, haccepted, hbook, hx, happly, hbefore, hafter, -⟩
  · exact (hsame.supply k).ge
  · obtain ⟨-, hbooks⟩ := hs.only (reserveBalance_only haccepted.2)
    have hpos := validateOrder_pos (hs.listed.lot m market hmarket) hvalid
    have hloop : EightPlaces x := EightPlaces.matchOrder
      ⟨⟨hq, hpos.le⟩, hbooks m book hbook, by simp⟩ hx
    have hfills := applyFills_grows (hquote market hmarket)
      (fun fill hfill => (hloop.fills fill hfill).2) happly
    rwa [(matched_sheet _ _ m x).supply, ← hbefore.supply, ← hafter.supply] at hfills

/-- **An accepted order** conserves every token, up to the fees of its fills. Reserving, matching
and settling the remainder leave the sheet alone, and each fill moves its legs, of which its two
fees are left over. -/
theorem placeOrder_fees {market : SpotMarket} {order : Order} {fills : List SpotFill}
    (hmarket : s.getMarket m = some market)
    (h : s.placeOrder a m q time = .ok (.ok (order, fills), s')) :
    ∃ fees, feesOf fills = .ok fees ∧ ∀ k, s'.unifiedState.supply k =
      s.unifiedState.supply k - if market.config.quoteToken = k then fees else 0 := by
  rcases placeOrder_sheet h with ⟨-, err, hr⟩ | ⟨market', token, reserve, s₁, book, x, paid, s₂,
    hmarket', -, -, -, -, happly, hbefore, hafter, hend⟩
  · cases hr
  obtain rfl := Option.some.inj (hmarket.symm.trans hmarket')
  rcases hend with ⟨err, hr⟩ | ⟨rfl, hr⟩
  · cases hr
  obtain ⟨rfl, rfl⟩ := Prod.mk.inj (Except.ok.inj hr)
  obtain ⟨fees, hfees, hsupply⟩ := applyFills_fees happly
  refine ⟨fees, hfees, fun k => ?_⟩
  rw [hafter.supply, hsupply, (matched_sheet _ _ m x).supply, hbefore.supply]

end Order

end SpotEngineState

namespace SpotCall

open SpotEngineState

/-- One token is sold for one USDC, and the fees of the fill are charged. -/
def SoldForFees (x : SpotEngineState × Except Error (Order × List SpotFill) × SpotEngineState ×
    Except Error (Order × List SpotFill)) : Prop :=
  ((x.2.2.1.getMarket 128).map fun market : SpotMarket => market.config.quoteToken) = some 0 ∧
    x.2.2.2.toOption.map (fun y => (feesOf y.2).toOption) = some (some 300)

instance (x : SpotEngineState × Except Error (Order × List SpotFill) × SpotEngineState ×
    Except Error (Order × List SpotFill)) : Decidable (SoldForFees x) := by
  unfold SoldForFees
  infer_instance

theorem sale_pays_fees : ∃ (s s' : SpotEngineState) (order : Order) (fills : List SpotFill),
    s.placeOrder 8 128 (atOne 128 .buy 100000000) 2 = .ok (.ok (order, fills), s') ∧
      s'.unifiedState.supply 0 = s.unifiedState.supply 0 - 300 ∧
      s'.unifiedState.supply 1 = s.unifiedState.supply 1 := by
  obtain ⟨⟨s, sold, s₁, bought⟩, hrun, htest⟩ := exists_of_test (x := saleRun 8)
    (p := fun x => decide (SoldForFees x)) (by decide +kernel)
  obtain ⟨hquote, hfees⟩ := of_decide_eq_true htest
  obtain ⟨-, -, -, s₂, hbought⟩ := saleRun_eq_ok hrun
  obtain ⟨market, hmarket, husdc⟩ := Option.map_eq_some_iff.mp hquote
  obtain ⟨⟨order, fills⟩, hr, hcharged⟩ := Option.map_eq_some_iff.mp hfees
  dsimp only at hmarket hr hcharged
  cases bought with
  | error err => cases hr
  | ok y =>
    obtain rfl := Option.some.inj hr
    obtain ⟨fees, hfees', hsupply⟩ := placeOrder_fees hmarket hbought
    rw [hfees'] at hcharged
    obtain rfl : fees = 300 := Option.some.inj hcharged
    refine ⟨s₁, s₂, order, fills, hbought, ?_, ?_⟩
    · rw [hsupply, husdc, if_pos rfl]
    · rw [hsupply, husdc, if_neg (by decide), sub_zero]

end SpotCall

end Hypercore
