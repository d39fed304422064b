import Hypercore.Engine.PriceTime
import Hypercore.Engine.TimeInForce
/-!
# Hypercore.Engine.MatchTermination

When the matching loop ends.

A turn of the loop takes a unit off the order or an entry off the side, unless the entry is
stranded. Over books made of admitted orders (`MatchRun`), sizes stay positive and books
standing, so a loop either ends within `turns` or never does; it never ends exactly when it
meets, with something left to fill, a stranded order of the taker's own.
-/

namespace Hypercore

open Exec Int128

namespace MatchingEngine

/-- The remaining size is positive, and a value of `i128`. -/
def Sized (o : Order) : Prop := 0 < o.remainingSize.value ∧ InRange o.remainingSize.value

section Steps

variable {b b' : OrderBook} {best order order' : Order} {s : OrderSide}
  {noCross : Decimal → Decimal → Bool} {fuel : Nat} {fills fills' : List Fill} {f : Decimal}

/-- What the index finds for the best order is the best order. -/
theorem best_indexed {k : OrderKey} {o : Order} (hb : b.Standing) (hbest : b.best s = some best)
    (hk : b.orderIndex[best.id]? = some k) (ho : (b.side k.side)[k]? = some o) : o = best := by
  obtain ⟨k', hk'⟩ := OrderBook.mem_of_best hbest
  obtain ⟨rfl, rfl⟩ := hb.ids _ _ _ _ _ _ ho hk' (hb.indexed hk ho).1
  exact Option.some.inj (ho.symm.trans hk')

/-- A partial fill leaves a positive size. -/
theorem fillResting_sized (hb : b.Standing) (hall : b.AllOrders Sized)
    (hbest : b.best s = some best) (hf : f.value ≤ best.remainingSize.value)
    (h : fillResting b best f = .ok b') : b'.AllOrders Sized := by
  obtain ⟨r, hr, h⟩ := bind_inv h
  obtain ⟨-, rfl⟩ := Decimal.sub_eq_ok.mp hr
  split at h
  · obtain rfl := pure_inv h
    exact hall.remove _
  · rename_i hne
    rw [Decimal.isZero_iff] at hne
    rcases OrderBook.modify_cases h with rfl | ⟨k, o, o', hk, ho, hw, rfl⟩
    · exact hall
    obtain rfl := best_indexed hb hbest hk ho
    have hleft : Sized o' := ⟨by rw [(fill_filledFrom hw).2]; dsimp only at hne; omega,
      fill_inRange hw⟩
    refine hall.setSide fun k' o₁ h₁ => ?_
    rw [FinMap.get_insert] at h₁
    split at h₁
    · obtain rfl := Option.some.inj h₁
      exact hleft
    · exact hall _ _ _ h₁

theorem fillResting_sized_ok (hb : b.Standing) (hbest : b.best s = some best) (hr : Sized best)
    (h0 : 0 ≤ f.value) (hf : f.value ≤ best.remainingSize.value) :
    ∃ b', fillResting b best f = .ok b' := by
  have hrange : InRange (best.remainingSize.value - f.value) :=
    ⟨by omega, by have := hr.2.2; omega⟩
  unfold fillResting
  rw [Decimal.sub_eq_ok.mpr ⟨hrange, rfl⟩, ok_bind]
  split
  · exact ⟨_, rfl⟩
  · unfold OrderBook.modify
    cases hk : b.orderIndex[best.id]? with
    | none => exact ⟨_, rfl⟩
    | some k =>
      dsimp only
      cases ho : (b.side k.side)[k]? with
      | none => exact ⟨_, rfl⟩
      | some o =>
        obtain rfl := best_indexed hb hbest hk ho
        obtain ⟨o', ho'⟩ := fill_ok hr.2 h0 hf
        dsimp only
        rw [ho', ok_bind]
        exact ⟨_, rfl⟩

/-- **Step lemma for books.** The loop keeps books standing, and sizes positive. -/
theorem matchAgainst_sized (hb : b.Standing) (hall : b.AllOrders Sized)
    (h0 : 0 ≤ order.remainingSize.value) (hr : InRange order.remainingSize.value)
    (h : matchAgainst s noCross fuel order b fills = .ok (order', b', fills')) :
    b'.Standing ∧ b'.AllOrders Sized ∧ 0 ≤ order'.remainingSize.value ∧
      InRange order'.remainingSize.value := by
  refine matchAgainst_induction (P := fun o b _ => b.Standing ∧ b.AllOrders Sized ∧
    0 ≤ o.remainingSize.value ∧ InRange o.remainingSize.value) ⟨hb, hall, h0, hr⟩ ?_ ?_ h
  · exact fun o b _ best _ hx => ⟨hx.1.remove _, hx.2.1.remove _, hx.2.2⟩
  · intro o o₁ b b₁ _ best hbest _ ho₁ hb₁ hx
    obtain ⟨hb, hall, h0, hr⟩ := hx
    have hmin := Decimal.min_value o.remainingSize best.remainingSize
    have hval := (fill_filledFrom ho₁).2
    refine ⟨fillResting_standing hb hb₁,
      fillResting_sized hb hall hbest (by rw [hmin]; split <;> omega) hb₁, ?_, fill_inRange ho₁⟩
    rw [hval, hmin]
    split <;> omega

/-! ### One turn -/

theorem matchAgainst_stop (h : order.remainingSize.value = 0 ∨ b.best s = none ∨
    ∃ best, b.best s = some best ∧ noCross best.price order.price = true) :
    matchAgainst s noCross (fuel + 1) order b fills = .ok (order, b, fills) := by
  unfold matchAgainst
  by_cases hz : order.remainingSize.isZero
  · rw [if_pos hz]
    rfl
  rw [if_neg hz]
  rcases h with h | h | ⟨best, h, hc⟩
  · exact absurd (Decimal.isZero_iff.mpr h) hz
  · rw [h]
    rfl
  · rw [h]
    dsimp only
    rw [if_pos hc]
    rfl

variable (hz : order.remainingSize.value ≠ 0) (hbest : b.best s = some best)
  (hc : noCross best.price order.price = false)

include hz hbest hc in
theorem matchAgainst_own (hown : best.owner = order.owner) :
    matchAgainst s noCross (fuel + 1) order b fills =
      matchAgainst s noCross fuel order (b.remove best.id).2 fills := by
  conv_lhs => unfold matchAgainst
  rw [if_neg (by simpa [Decimal.isZero_iff] using hz), hbest]
  dsimp only
  rw [hc, if_neg (by simp), if_pos hown]

include hz hbest hc in
theorem matchAgainst_other (hown : best.owner ≠ order.owner) {o₁ : Order} {b₁ : OrderBook}
    (ho₁ : order.fill (order.remainingSize.min best.remainingSize) = .ok o₁)
    (hb₁ : fillResting b best (order.remainingSize.min best.remainingSize) = .ok b₁) :
    matchAgainst s noCross (fuel + 1) order b fills = matchAgainst s noCross fuel o₁ b₁
      (fills ++ [mkFill order best (order.remainingSize.min best.remainingSize).value]) := by
  conv_lhs => unfold matchAgainst
  rw [if_neg (by simpa [Decimal.isZero_iff] using hz), hbest]
  dsimp only
  rw [hc, if_neg (by simp), if_neg hown, ho₁, ok_bind, hb₁, ok_bind]

/-- **The loop with positive sizes** returns, or runs out of turns; it only runs out of as many
turns as there are units and entries when the sweep never ends. -/
theorem matchAgainst_total (hb : b.Standing) (hall : b.AllOrders Sized)
    (h0 : 0 ≤ order.remainingSize.value) (hr : InRange order.remainingSize.value) :
    (∃ x, matchAgainst s noCross fuel order b fills = .ok x) ∨
    (matchAgainst s noCross fuel order b fills = .error .diverge ∧
      (fuel < order.remainingSize.value.toNat + (sideList b s).length + 1 ∨
        Auction.sweep (rules order noCross) stays (sideList b s) order.remainingSize.value =
          none)) := by
  induction fuel generalizing order b fills with
  | zero => exact .inr ⟨rfl, .inl (by omega)⟩
  | succ fuel ih =>
    by_cases hz : order.remainingSize.value = 0
    · exact .inl ⟨_, matchAgainst_stop (.inl hz)⟩
    cases hbest : b.best s with
    | none => exact .inl ⟨_, matchAgainst_stop (.inr (.inl hbest))⟩
    | some best =>
    cases hc : noCross best.price order.price with
    | true => exact .inl ⟨_, matchAgainst_stop (.inr (.inr ⟨best, hbest, hc⟩))⟩
    | false =>
    obtain ⟨l, hlist, hrest⟩ := best_list hb hbest
    have hgoes : ¬ (order.remainingSize.value = 0 ∨
        (rules order noCross).crosses best = false) := by
      simp [rules, hz, hc]
    rw [hlist, List.length_cons, Auction.sweep, if_neg hgoes]
    by_cases hown : best.owner = order.owner
    · -- an entry is taken off, or the order is stranded
      rw [matchAgainst_own hz hbest hc hown, if_pos (by simpa [rules] using hown)]
      rcases ih (hb.remove best.id) (hall.remove _) h0 hr with hok | ⟨hdiv, hwhy⟩
      · exact .inl hok
      · refine .inr ⟨hdiv, ?_⟩
        rw [hrest] at hwhy
        by_cases hside : best.OnOwnSide
        · rw [if_pos hside] at hwhy
          rw [if_neg (by simpa [stays] using hside)]
          exact hwhy.imp (fun h => by omega) id
        · rw [if_pos (by simpa [stays] using hside)]
          exact .inr rfl
    · -- at least a unit is taken off the order
      rw [if_neg (by simpa [rules] using hown)]
      have hsized : Sized best := hall.best hbest
      have hpos : 0 < best.remainingSize.value := hsized.1
      have hmin := Decimal.min_value order.remainingSize best.remainingSize
      have hmin0 : 0 ≤ (order.remainingSize.min best.remainingSize).value := by
        rw [hmin]
        split <;> omega
      have hminle : (order.remainingSize.min best.remainingSize).value ≤
          best.remainingSize.value := by
        rw [hmin]
        split <;> omega
      obtain ⟨o₁, ho₁⟩ := fill_ok hr hmin0 (by rw [hmin]; split <;> omega)
      obtain ⟨b₁, hb₁⟩ := fillResting_sized_ok hb hbest hsized hmin0 hminle
      obtain ⟨hfrom, hval⟩ := fill_filledFrom ho₁
      rw [hmin] at hval
      rw [matchAgainst_other hz hbest hc hown ho₁ hb₁]
      by_cases hle : order.remainingSize.value ≤ best.remainingSize.value
      · -- the order is filled: the next turn ends the loop
        rw [if_pos hle, sub_self] at hval
        cases fuel with
        | zero => exact .inr ⟨rfl, .inl (by omega)⟩
        | succ fuel => exact .inl ⟨_, matchAgainst_stop (.inl hval)⟩
      rw [if_neg (by exact hle)]
      rw [if_neg hle] at hval hmin
      refine Or.imp id (And.imp id fun hwhy => ?_) (ih (fillResting_standing hb hb₁)
        (fillResting_sized hb hall hbest hminle hb₁) (by omega) (fill_inRange ho₁))
      -- the best order is used up, and goes if it is not stranded
      rw [fillResting_all hmin hb₁, hrest, hfrom.rules, hval] at hwhy
      by_cases hside : best.OnOwnSide
      · rw [if_pos hside] at hwhy
        rw [if_neg (by simpa [stays] using hside)]
        exact hwhy.imp (fun h => by omega) id
      · rw [if_neg hside] at hwhy
        rcases hwhy with hfuel | hnone
        · exact .inl (by rw [List.length_cons] at hfuel; omega)
        · exact absurd hnone (Auction.sweep_cons_stays (by simpa [rules] using hown)
            (by simpa [stays] using hside) hpos)

end Steps

/-- The matching loop for an order ends. -/
def Ends (order : Order) (book : OrderBook) : Prop :=
  ∃ fuel x, matchAgainst (makerSide order.side) (noCross order.side) fuel order book [] = .ok x

/-- Matching reaches, with something left to fill, a stranded order of the taker's own: the
resting orders before it all cross, are on the side of their key, and are smaller together
than the order, the taker's own among them not counted. -/
def MeetsOwnStranded (order : Order) (book : OrderBook) : Prop :=
  Auction.Meets (rules order (noCross order.side)) stays (sideList book (makerSide order.side))
    order.remainingSize.value

section Ending

variable {order : Order} {b : OrderBook}

/-- Nothing is said about what is left exactly when such an order is met. -/
theorem leftOf_eq_none_iff (hall : b.AllOrders Sized) (h0 : 0 ≤ order.remainingSize.value) :
    leftOf order b = none ↔ MeetsOwnStranded order b := by
  refine Auction.sweep_eq_none_iff (fun o ho => ?_) h0
  obtain ⟨⟨k, o'⟩, hp, rfl⟩ := List.mem_map.mp ho
  exact (hall _ _ _ (FinMap.mem_toList.mp hp)).1

theorem Ends.leftOf (hb : b.Standing) (h : Ends order b) : leftOf order b ≠ none := by
  obtain ⟨fuel, ⟨order', b', fills'⟩, h⟩ := h
  rw [MatchingEngine.leftOf, (matchAgainst_sweep hb h).1]
  simp

theorem ends_iff (hb : b.Standing) (hall : b.AllOrders Sized)
    (h0 : 0 ≤ order.remainingSize.value) (hr : InRange order.remainingSize.value) :
    Ends order b ↔ ¬ MeetsOwnStranded order b := by
  rw [← leftOf_eq_none_iff hall h0]
  constructor
  · intro h
    exact h.leftOf hb
  · intro hsome
    -- as many turns as there are units and entries
    have htotal : (∃ x, matchAgainst (makerSide order.side) (noCross order.side)
        (turns order b (makerSide order.side)) order b [] = .ok x) ∨ _ :=
      matchAgainst_total hb hall h0 hr
    rcases htotal with hok | ⟨-, hwhy⟩
    · exact ⟨_, hok⟩
    · rcases hwhy with hfuel | hnone
      · rw [turns, sideList, List.length_map] at hfuel
        exact absurd hfuel (lt_irrefl _)
      · exact absurd hnone hsome

end Ending

/-! ### Books made of admitted orders -/

/-- What happens to the book of a market. -/
inductive DeskEvent
  | place (orderId : OrderId) (owner : AccountAddress) (request : OrderRequest) (t : Timestamp)
  | cancel (orderId : OrderId)

namespace MatchRun

/-- An order that is not matched to its end leaves no book. -/
def step : DeskEvent → OrderBook → Exec OrderBook
  | .place orderId owner request t, book => do
    let (_, book) ← processOrder (.new orderId owner request t) book
    return book
  | .cancel orderId, book => return (book.remove orderId).2

/-- New ids, prices that the tick admits, and sizes of at least the minimum. -/
def Admits (config : MarketConfig) (book : OrderBook) : DeskEvent → Prop
  | .place orderId _ request _ =>
    config.validatePrice request.price = .ok true ∧ ¬ request.size < config.minOrderSize ∧
      InRange request.size.value ∧
      ∀ (s : OrderSide) (k : OrderKey) (o : Order), (book.side s)[k]? = some o → o.id ≠ orderId
  | .cancel _ => True

/-- Some run of admitted orders and cancellations ends in the book. -/
abbrev Reachable (config : MarketConfig) (book : OrderBook) : Prop :=
  Run.Reaches step (Admits config) .new book

section Books

variable {config : MarketConfig} {b b' : OrderBook} {order : Order} {id : OrderId}
  {owner : AccountAddress} {request : OrderRequest} {t : Timestamp}

theorem admits_size (hmin : 0 < config.minOrderSize.value)
    (h : Admits config b (.place id owner request t)) : 0 < request.size.value := by
  have hlt := h.2.1
  rw [Decimal.lt_def] at hlt
  omega

/-- Processing an order with a new id keeps the book standing, and sizes positive. -/
theorem processOrder_sized {r : Except Error (Order × List Fill)} (hb : b.Standing)
    (hall : b.AllOrders Sized) (h0 : 0 ≤ order.remainingSize.value)
    (hr : InRange order.remainingSize.value)
    (hnew : ∀ (s : OrderSide) (k : OrderKey) (o : Order), (b.side s)[k]? = some o →
      o.id ≠ order.id)
    (h : processOrder order b = .ok (r, b')) : b'.Standing ∧ b'.AllOrders Sized := by
  obtain ⟨order₁, b₁, fills, r₁, hmatch, hun, -⟩ := processOrder_cases h
  obtain ⟨hb₁, hall₁, h0₁, hr₁⟩ := matchAgainst_sized hb hall h0 hr hmatch
  obtain ⟨hfrom, -, -⟩ := matchAgainst_all (P := fun _ => True) (fun _ _ _ _ _ => trivial)
    (fun _ _ _ _ => trivial) (by simp) hmatch
  rcases handleUnfilled_cases hun with ⟨-, -, rfl⟩ | ⟨-, -, rfl, -⟩ | ⟨hnot, -, -, hins⟩ |
    ⟨-, -, -, rfl⟩
  · exact ⟨hb₁, hall₁⟩
  · exact ⟨hb₁, hall₁⟩
  · -- the remainder rests
    have hne : order₁.remainingSize.value ≠ 0 := by
      simpa [Order.isFilled, Decimal.isZero] using hnot
    have hid : order₁.id = order.id := by rw [hfrom.1]
    refine ⟨hb₁.insert (fun s k o ho => ?_) hins, hall₁.insert ⟨by omega, hr₁⟩ hins⟩
    obtain ⟨o₀, h₀, hsame⟩ :=
      (matchAgainst_keeps hr (hall.imp fun _ ho => ho.2) hmatch).1 s k o ho
    rw [hid, hsame.1]
    exact hnew _ _ _ h₀
  · exact ⟨hb₁, hall₁⟩

/-- **Step lemma.** -/
theorem step_sized {e : DeskEvent} (hmin : 0 < config.minOrderSize.value)
    (hb : b.Standing ∧ b.AllOrders Sized) (hok : Admits config b e) (h : step e b = .ok b') :
    b'.Standing ∧ b'.AllOrders Sized := by
  cases e with
  | place id owner request t =>
    obtain ⟨⟨r, b₁⟩, hprocess, h⟩ := bind_inv h
    obtain rfl := pure_inv h
    exact processOrder_sized hb.1 hb.2 (admits_size hmin hok).le hok.2.2.1 hok.2.2.2 hprocess
  | cancel id =>
    obtain rfl := pure_inv h
    exact ⟨hb.1.remove id, hb.2.remove id⟩

/-- **Run lemma.** -/
theorem Reachable.sized (hmin : 0 < config.minOrderSize.value) (h : Reachable config b) :
    b.Standing ∧ b.AllOrders Sized :=
  h.invariant (P := fun b => b.Standing ∧ b.AllOrders Sized) ⟨OrderBook.new_standing, .new⟩
    fun _ _ _ hb hok hstep => step_sized hmin hb hok hstep

/-- **Termination of matching.** In every book made of admitted orders, the loop for an admitted
order ends exactly when it meets no stranded order of the taker's own. A turn takes a unit off the
order or an entry off the side, unless the entry is stranded. -/
theorem matching_ends_iff (hmin : 0 < config.minOrderSize.value) (hreach : Reachable config b)
    (hok : Admits config b (.place id owner request t)) :
    Ends (.new id owner request t) b ↔ ¬ MeetsOwnStranded (.new id owner request t) b :=
  have hb := hreach.sized hmin
  ends_iff hb.1 hb.2 (admits_size hmin hok).le hok.2.2.1

end Books

/-- A request for one unit. -/
def unitRequest (side : OrderSide) (price : Int) : OrderRequest where
  marketId := 0
  side := side
  price := ⟨price, 8⟩
  size := ⟨100000000, 8⟩
  orderType := .limit .gtc
  reduceOnly := false
  clientOrderId := none
  triggerPrice := none
  triggerDirection := none

/-- A bid at price zero of account 7, and a request of an owner to sell at price zero. -/
theorem zeroBid_run (owner : AccountAddress) : ∃ b, Reachable .btcPerp b ∧
    Admits .btcPerp b (.place 2 owner (unitRequest .sell 0) 1001) ∧
    sideList b .buy = [.new 1 7 (unitRequest .buy 0) 1000] := by
  obtain ⟨b, hb, ht⟩ := exists_of_test
    (x := step (.place 1 7 (unitRequest .buy 0) 1000) .new)
    (p := fun b => decide (sideList b .buy = [.new 1 7 (unitRequest .buy 0) 1000] ∧
      sideList b .sell = [])) (by decide +kernel)
  obtain ⟨hbids, hasks⟩ := of_decide_eq_true ht
  have hnew : ∀ (s : OrderSide) (k : OrderKey) (o : Order), (OrderBook.new.side s)[k]? = some o →
      o.id ≠ 1 := by
    intro s k o ho
    cases s <;> simp [OrderBook.new, OrderBook.side] at ho
  refine ⟨b, .tail (.place 1 7 (unitRequest .buy 0) 1000) .refl
    ⟨by decide, by decide, by decide, hnew⟩ hb,
    ⟨by decide, by decide, by decide, fun s k o ho => ?_⟩, hbids⟩
  have hmem : o ∈ sideList b s := List.mem_map.mpr ⟨(k, o), FinMap.mem_toList.mpr ho, rfl⟩
  cases s with
  | buy =>
    rw [hbids] at hmem
    obtain rfl := List.mem_singleton.mp hmem
    decide
  | sell =>
    rw [hasks] at hmem
    exact absurd hmem List.not_mem_nil

/-- Matching ends for another account: the bid is sold to as often as it takes. -/
theorem matching_ends_other : ∃ b, Reachable .btcPerp b ∧
    Admits .btcPerp b (.place 2 9 (unitRequest .sell 0) 1001) ∧
    Ends (.new 2 9 (unitRequest .sell 0) 1001) b := by
  obtain ⟨b, hreach, hok, hbids⟩ := zeroBid_run 9
  refine ⟨b, hreach, hok, (matching_ends_iff (by decide) hreach hok).mpr fun hmeets => ?_⟩
  have hb := hreach.sized (by decide)
  have hleft : leftOf (.new 2 9 (unitRequest .sell 0) 1001) b = none :=
    (leftOf_eq_none_iff hb.2 (by decide)).mpr hmeets
  have hsweep : Auction.sweep (rules (.new 2 9 (unitRequest .sell 0) 1001) bidBelow) stays
      (sideList b .buy) 100000000 = none := hleft
  rw [hbids] at hsweep
  revert hsweep
  decide

/-- For account 7 it never ends: its own bid stays the best bid. -/
theorem matching_never_ends : ∃ b, Reachable .btcPerp b ∧
    Admits .btcPerp b (.place 2 7 (unitRequest .sell 0) 1001) ∧
    ¬ Ends (.new 2 7 (unitRequest .sell 0) 1001) b := by
  obtain ⟨b, hreach, hok, hbids⟩ := zeroBid_run 7
  refine ⟨b, hreach, hok, fun hends => ?_⟩
  have hsweep : Auction.sweep (rules (.new 2 7 (unitRequest .sell 0) 1001) bidBelow) stays
      (sideList b .buy) 100000000 ≠ none := hends.leftOf (hreach.sized (by decide)).1
  rw [hbids] at hsweep
  revert hsweep
  decide

end MatchRun

end MatchingEngine

end Hypercore
