import Hypercore.Engine.Books
import Hypercore.Engine.Cloids
import Hypercore.Engine.TimeInForce
/-!
# Hypercore.Engine.OrderFate

What became of an order right after it was placed.

It is filled, or a remainder of it stands on the book of its market, or neither. The ids on
the books of a reachable engine were given out before (`Reachable.idsBelow`), so what stands
under the next id is the order that gets it: an order that was accepted stands exactly when
it is no trigger order, is not filled and is of a kind that rests (`submitOrder_fate`).
-/

namespace Hypercore

open Exec Int128 OrderMaps

/-- What became of an order right after it was placed. -/
inductive OrderFate
  | filled
  | rests (orderId : OrderId)
  | failed
  deriving DecidableEq, Repr

namespace OrderBook

/-- A positive remainder of an order stands on a book. -/
def carries (b : OrderBook) (id : OrderId) : Bool :=
  b.getAllOrders.any fun o => o.id = id && 0 < o.remainingSize.value

variable {b : OrderBook} {id : OrderId} {o : Order}

theorem carries_of_side {s : OrderSide} {k : OrderKey} (h : (b.side s)[k]? = some o)
    (hpos : 0 < o.remainingSize.value) : b.carries o.id = true :=
  List.any_eq_true.mpr ⟨o, mem_getAllOrders.mpr ⟨s, k, h⟩, by simp [hpos]⟩

theorem carries_below {n : OrderId} (hb : b.AllOrders fun o => o.id < n) : b.carries n = false := by
  rw [carries, List.any_eq_false]
  intro o ho
  obtain ⟨s, k, h⟩ := mem_getAllOrders.mp ho
  have hlt := hb s k o h
  simp [hlt.ne]

end OrderBook

/-- The fate of an order, on the book that its placement leaves. -/
def Order.fate (o : Order) (book : Option OrderBook) : OrderFate :=
  if o.isFilled then .filled
  else if book.any (·.carries o.id) then .rests o.id
  else .failed

/-! ### Matching -/

namespace MatchingEngine

variable {order order' updated : Order} {b b' : OrderBook} {fills fills' : List Fill}
  {s : OrderSide} {noCross : Decimal → Decimal → Bool} {fuel : Nat}

/-- Matching takes no more than there is, and an order without fills is as it was. -/
theorem matchAgainst_nonneg (h0 : 0 ≤ order.remainingSize.value)
    (h : matchAgainst s noCross fuel order b fills = .ok (order', b', fills')) :
    0 ≤ order'.remainingSize.value ∧ (fills' = [] → order' = order ∧ fills = []) := by
  refine matchAgainst_induction (P := fun o _ fs => 0 ≤ o.remainingSize.value ∧
    (fs = [] → o = order ∧ fills = [])) ⟨h0, fun hnil => ⟨rfl, hnil⟩⟩
    (fun _ _ _ _ _ hx => hx) ?_ h
  intro o o₁ _ _ fs best _ _ ho₁ _ hx
  refine ⟨?_, fun hnil => absurd hnil (by simp)⟩
  have h1 := hx.1
  rw [(fill_filledFrom ho₁).2, Decimal.min_value]
  split <;> omega

/-- Processing keeps the order's data and sign, and an order that it fills has fills. -/
theorem processOrder_nonneg (h0 : 0 < order.remainingSize.value)
    (h : processOrder order b = .ok (.ok (updated, fills), b')) :
    FilledFrom order updated ∧ 0 ≤ updated.remainingSize.value ∧
      (updated.isFilled = true → fills ≠ []) := by
  obtain ⟨hfrom, -⟩ := (processOrder_all (P := fun _ => True) (fun _ _ _ _ _ => trivial)
    (fun _ _ _ _ => trivial) (fun _ _ => trivial) h).2 updated fills rfl
  obtain ⟨order₁, b₁, hmatch, hun⟩ := processOrder_steps h
  obtain ⟨hpos, hnil⟩ := matchAgainst_nonneg h0.le hmatch
  have hsize : updated.remainingSize = order₁.remainingSize := by
    rcases handleUnfilled_cases hun with ⟨-, hr, -⟩ | ⟨-, -, -, ⟨-, hr⟩ | ⟨-, hr⟩⟩ |
      ⟨-, -, hr, -⟩ | ⟨-, -, hr, -⟩
    all_goals cases hr
    all_goals rfl
  refine ⟨hfrom, by rw [hsize]; exact hpos, fun hfilled hn => ?_⟩
  obtain ⟨rfl, -⟩ := hnil hn
  unfold Order.isFilled at hfilled
  rw [hsize, Decimal.isZero_iff] at hfilled
  omega

end MatchingEngine

/-! ### The ids on the books -/

namespace EngineState

variable {s s' : EngineState}

/-- The ids on the books are below the next one. -/
def IdsBelow (s : EngineState) : Prop := s.maps.AllBooks fun o => o.id < s.nextOrderId

end EngineState

/-! ### Placing an order -/

namespace Engine

open EngineState MatchingEngine

section Execute

variable {e e' : Engine} {market : Market} {order updated : Order} {fills : List Fill}
  {r : Except Error (Order × List Fill)} {n : OrderId}

/-- **Execution** adds to the books only the order, if it rests. -/
theorem executeOrder_below (hs : e.state.maps.AllBooks fun o => o.id < n)
    (hown : order.shouldRest = true → order.id < n)
    (h : e.executeOrder market order = .ok (r, e')) : e'.state.maps.AllBooks fun o => o.id < n := by
  have hrule : BookRule fun _ b => b.AllOrders fun o => o.id < n :=
    .orders fun ho hfill => by rwa [(fill_filledFrom hfill).1.1]
  refine executeOrder_books hrule (fun updated hfrom hrest b b' hb hins => ?_) hs h
  rw [hfrom.1] at hrest
  exact hb.insert (by rw [hfrom.1]; exact hown hrest) hins

/-- An order that is executed without error was matched in the book of its market. -/
theorem executeOrder_matched (h : e.executeOrder market order = .ok (.ok (updated, fills), e')) :
    ∃ book updated₁ fills₁ book', e.state.getOrderbook order.marketId = some book ∧
      processOrder order book = .ok (.ok (updated₁, fills₁), book') ∧ updated₁ = updated := by
  rcases executeOrder_cases h with ⟨-, err, hr⟩ | ⟨book, book', r₁, hbook, hproc, hend⟩
  · cases hr
  rcases hend with ⟨err, -, hr, -⟩ | ⟨updated₁, fills₁, fills', rfl, hr, -⟩
  · cases hr
  obtain ⟨rfl, -⟩ := Prod.mk.inj (Except.ok.inj hr)
  exact ⟨book, updated, fills₁, book', hbook, hproc, rfl⟩

/-- What is executed is the order, and fills that complete it are some. -/
theorem executeOrder_updated (h : e.executeOrder market order = .ok (.ok (updated, fills), e')) :
    FilledFrom order updated ∧ (0 < order.remainingSize.value →
      0 ≤ updated.remainingSize.value ∧ (updated.isFilled = true → fills ≠ [])) := by
  rcases executeOrder_cases h with ⟨-, err, hr⟩ | ⟨book, book', r₁, -, hproc, hend⟩
  · cases hr
  rcases hend with ⟨err, -, hr, -⟩ | ⟨updated₁, fills₁, fills', rfl, hr, hsettle⟩
  · cases hr
  obtain ⟨rfl, rfl⟩ := Prod.mk.inj (Except.ok.inj hr)
  obtain ⟨hfrom, -⟩ := (processOrder_all (P := fun _ => True) (fun _ _ _ _ _ => trivial)
    (fun _ _ _ _ => trivial) (fun _ _ => trivial) hproc).2 updated fills₁ rfl
  refine ⟨hfrom, fun hpos => ?_⟩
  obtain ⟨-, hnonneg, hsome⟩ := processOrder_nonneg hpos hproc
  refine ⟨hnonneg, fun hfilled hnil => hsome hfilled ?_⟩
  have hmakers := settleOrder_makers hsettle
  rw [hnil] at hmakers
  exact List.map_eq_nil_iff.mp hmakers.symm

/-- **A remainder that rests** stands on the book of its market. -/
theorem executeOrder_rests (hs : e.state.Filed)
    (h : e.executeOrder market order = .ok (.ok (updated, fills), e'))
    (hopen : updated.isFilled = false) (hrest : updated.shouldRest = true) :
    ∃ book, e'.state.getOrderbook updated.marketId = some book ∧
      (book.side updated.side)[updated.rawKey]? = some updated := by
  rcases executeOrder_cases h with ⟨-, err, hr⟩ | ⟨book, book', r₁, hbook, hproc, hend⟩
  · cases hr
  rcases hend with ⟨err, -, hr, -⟩ | ⟨updated₁, fills₁, fills', rfl, hr, hsettle⟩
  · cases hr
  obtain ⟨rfl, rfl⟩ := Prod.mk.inj (Except.ok.inj hr)
  have hmarket : updated.marketId = order.marketId := by rw [(executeOrder_updated h).1.1]
  obtain ⟨s, hkept, hadd⟩ := settleOrder_rests (by rw [hopen, hrest]; rfl) hsettle
  have hset : OrderMaps.FilingKept e.state.maps
      (e.state.setOrderbook order.marketId book').maps :=
    .setBook hbook fun hb => processOrder_caches hb hproc
  have hfiling : OrderMaps.FilingKept e.state.maps s.maps :=
    (hset.trans (syncMakers_filing _ updated.marketId fills₁)).trans (filing_of_kept hkept)
  have hlisted : (s.maps.orderbooks[updated.marketId]?).isSome = true := by
    rw [hfiling.books, hmarket]
    exact Option.isSome_of_eq_some hbook
  obtain ⟨-, b, hb, hside⟩ := (hfiling.filed hs).restsIn hlisted (maps_addOrder hadd)
  exact ⟨b, hb, hside⟩

end Execute

section Submit

variable {e e' : Engine} {a : AccountAddress} {q : OrderRequest} {t : Timestamp}
  {r : Except Error (Order × List Fill)}

/-- A size that passes the checks is positive. -/
theorem validateOrder_size {config : MarketConfig} (hlot : 0 < config.minOrderSize.value)
    (h : validateOrder q config = .ok (.ok ())) : 0 < q.size.value := by
  obtain ⟨priced, -, h⟩ := bind_inv h
  split at h
  · cases pure_inv h
  obtain ⟨sized, -, h⟩ := bind_inv h
  split at h
  · cases pure_inv h
  split at h
  · cases pure_inv h
  · rename_i hmin
    rw [Decimal.lt_def] at hmin
    omega

/-- Matching an order in its book leaves nothing of it. -/
def Completes (e : Engine) (account : AccountAddress) (request : OrderRequest)
    (timestamp : Timestamp) : Prop :=
  ∃ book updated fills book', e.state.getOrderbook request.marketId = some book ∧
    processOrder (.new e.state.nextOrderId account request timestamp) book =
      .ok (.ok (updated, fills), book') ∧ updated.isFilled = true

/-- The trigger check leaves the result of a submission alone. -/
theorem placeOrder_submits (h : e.placeOrder a q t = .ok (r, e')) :
    ∃ e₁, e.submitOrder a q t = .ok (r, e₁) := by
  obtain ⟨⟨r₁, e₁⟩, hs, h⟩ := bind_inv h
  refine ⟨e₁, ?_⟩
  rw [hs]
  cases r₁ with
  | error err =>
    obtain ⟨rfl, -⟩ := pair_inv h
    rfl
  | ok p =>
    dsimp only at h
    split at h
    · obtain ⟨rfl, -⟩ := pair_inv h
      rfl
    · split at h
      · obtain ⟨rfl, -⟩ := pair_inv h
        rfl
      · obtain ⟨⟨res, e₂⟩, -, h⟩ := bind_inv h
        obtain ⟨rfl, -⟩ := pair_inv h
        rfl

/-- **What became of an order** that was accepted: it got the next id, and a remainder of it
is on the book exactly when it is no trigger order and is of a kind that rests. -/
theorem submitOrder_fate {order : Order} {fills : List Fill} (hfiled : e.state.Filed)
    (hids : e.state.IdsBelow)
    (hlot : ∀ market, e.state.getMarket q.marketId = some market →
      0 < market.config.minOrderSize.value)
    (h : e.submitOrder a q t = .ok (.ok (order, fills), e')) :
    (order.isFilled = true → fills ≠ []) ∧
      (order.isFilled = true ↔ q.triggerPrice = none ∧ e.Completes a q t) ∧
      order.remainingSize.decimals = q.size.decimals ∧
      order.orderType = q.orderType ∧
      order.fate (e'.state.getOrderbook q.marketId) =
        if order.isFilled then .filled
        else if q.triggerPrice = none ∧ order.shouldRest = true then .rests order.id
        else .failed := by
  rcases submitOrder_cases h with ⟨-, err, hr⟩ | ⟨market, hm, hvalid, -, -, hend⟩
  · cases hr
  have hbelow : e.state.maps.AllBooks fun o => o.id < e.state.nextOrderId := hids
  have hmaps : (e.enter a q.marketId).state.maps = e.state.maps := by
    obtain ⟨_, _, hsame⟩ := enter_only e a q.marketId
    rw [hsame]
    rfl
  have hpos : 0 < q.size.value := validateOrder_size (hlot market hm) hvalid
  have hopen : ∀ {n}, Order.isFilled (.new n a q t) = false := fun {n} =>
    Decimal.isZero_eq_false.mpr hpos.ne'
  -- nothing on the books has the next id
  have habsent : ∀ {s : EngineState}, (s.maps.AllBooks fun o => o.id < e.state.nextOrderId) →
      (s.getOrderbook q.marketId).any (·.carries e.state.nextOrderId) = false := by
    intro s hs
    cases hb : s.getOrderbook q.marketId with
    | none => rfl
    | some b => exact OrderBook.carries_below (hs _ b hb)
  unfold Order.fate
  rcases hend with ⟨htrig, hr, rfl⟩ | ⟨htrig, hexec⟩
  · obtain ⟨rfl, rfl⟩ := Prod.mk.inj (Except.ok.inj hr)
    have hkept : OrdersKept (e.enter a q.marketId).state _ := .of_triggers
      (addTriggerOrder_only (.new e.state.nextOrderId a q t))
    have hentered : (e.enter a q.marketId).state.maps.AllBooks fun o =>
        o.id < e.state.nextOrderId := hmaps ▸ hbelow
    have hnone := habsent (s := (e.enter a q.marketId).state.addTriggerOrder
        (.new e.state.nextOrderId a q t)) fun m b hb =>
      hentered m b ((congrArg (·[m]?) hkept.orderbooks).symm.trans hb)
    refine ⟨fun hfilled => ?_, iff_of_false ?_ ?_, rfl, rfl, ?_⟩
    · rw [hopen] at hfilled
      cases hfilled
    · rw [hopen]
      simp
    · rintro ⟨hnot, -⟩
      rw [hnot] at htrig
      cases htrig
    · rw [show (Order.new e.state.nextOrderId a q t).id = e.state.nextOrderId from rfl, hnone,
        if_neg (show ¬ (q.triggerPrice = none ∧ _) from fun hc => by
          rw [hc.1] at htrig
          cases htrig)]
      rfl
  · obtain ⟨hfrom, hleft⟩ := executeOrder_updated hexec
    obtain ⟨hnonneg, hsome⟩ := hleft hpos
    have hid : order.id = e.state.nextOrderId := by rw [hfrom.1]; rfl
    have hmarket : order.marketId = q.marketId := by rw [hfrom.1]; rfl
    have hcompletes : order.isFilled = true ↔ q.triggerPrice = none ∧ e.Completes a q t := by
      obtain ⟨book, updated, fills₁, book', hbook, hproc, rfl⟩ := executeOrder_matched hexec
      have hbook₀ : e.state.getOrderbook q.marketId = some book := by
        rw [← hbook]
        exact congrArg (·.orderbooks[q.marketId]?) hmaps.symm
      constructor
      · exact fun hfilled => ⟨htrig, book, _, fills₁, book', hbook₀, hproc, hfilled⟩
      · rintro ⟨-, book₁, updated₁, fills₂, book₂, hbook₁, hproc₁, hfilled⟩
        obtain rfl := Option.some.inj (hbook₀.symm.trans hbook₁)
        have hsame := ok_unique hproc hproc₁
        obtain ⟨rfl, -⟩ := Prod.mk.inj (Except.ok.inj (Prod.mk.inj hsame).1)
        exact hfilled
    refine ⟨hsome, hcompletes, hfrom.2, by rw [hfrom.1]; rfl, ?_⟩
    cases hfilled : order.isFilled with
    | true => rfl
    | false =>
      cases hrest : order.shouldRest with
      | true =>
        obtain ⟨book, hbook, hside⟩ :=
          executeOrder_rests (by unfold EngineState.Filed; rw [hmaps]; exact hfiled) hexec hfilled
            hrest
        rw [hmarket] at hbook
        have hne := Decimal.isZero_eq_false.mp hfilled
        have hcarried := OrderBook.carries_of_side hside (by omega)
        simp [hbook, hcarried, htrig]
      | false =>
        have hafter := executeOrder_below (n := e.state.nextOrderId) (hmaps ▸ hbelow)
          (fun hrests => by
            rw [hfrom.1] at hrest
            exact absurd (hrest.symm.trans hrests) Bool.false_ne_true) hexec
        rw [hid, habsent hafter]
        simp

end Submit

/-- **Run.** The ids on the books of a reachable engine were given out before. -/
theorem Reachable.idsBelow {e : Engine} (h : Reachable e) : e.state.IdsBelow :=
  h.booksStand.imp fun _ _ hb => hb.below

end Engine

end Hypercore
