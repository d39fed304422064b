import Hypercore.Engine.OrderBook
import Hypercore.Lib.Auction
/-!
# Hypercore.Engine.Matching

Deterministic order matching.

The source writes the loop twice, once against the asks and once against the
bids. Here it is one function of the maker side and of the test that stops it
(`matchAgainst`); `matchAgainstAsks` and `matchAgainstBids` are its two uses.

**The loop is the auction.** On a well-formed book the loop does what
`Auction.walk` does to the list of the maker side (`matchAgainst_walk`): fills,
taker and book are read off the walk. In any book, well formed or not, every fill
is with an order of the book (`matchAgainst_all`).
-/

namespace Hypercore

open Exec Int128

namespace MatchingEngine

/-- The fill record of one match; fees and PnL are filled in by the engine. -/
def mkFill (order best : Order) (fillSize : Int) : Fill where
  marketId := order.marketId
  maker := best.owner
  taker := order.owner
  makerOrderId := best.id
  takerOrderId := order.id
  price := toU128 best.price.value
  size := toU128 fillSize
  makerFee := 0
  takerFee := 0
  timestamp := order.timestamp
  isTakerBuy := order.side = .buy
  realizedPnlMaker := 0
  realizedPnlTaker := 0

/-- The resting order after a match: removed when nothing remains of it. -/
def fillResting (book : OrderBook) (best : Order) (fillSize : Decimal) : Exec OrderBook := do
  let restingRemaining ← best.remainingSize.sub fillSize
  if restingRemaining.isZero then return (book.remove best.id).2
  else book.modify best.id (·.fill fillSize)

/-- The matching loop against the orders of `makerSide`, with at most `fuel` turns.
`noCross best limit` is the test on prices that ends it. -/
def matchAgainst (makerSide : OrderSide) (noCross : Decimal → Decimal → Bool) :
    Nat → Order → OrderBook → List Fill → Exec (Order × OrderBook × List Fill)
  | 0, _, _, _ => .error .diverge
  | fuel + 1, order, book, fills =>
    if order.remainingSize.isZero then return (order, book, fills)
    else match book.best makerSide with
      | none => return (order, book, fills)
      | some best =>
        if noCross best.price order.price then return (order, book, fills)
        -- self-trade prevention: cancel the resting order
        else if best.owner = order.owner then
          matchAgainst makerSide noCross fuel order (book.remove best.id).2 fills
        else do
          let fillSize := order.remainingSize.min best.remainingSize
          let order' ← order.fill fillSize
          let book ← fillResting book best fillSize
          matchAgainst makerSide noCross fuel order' book
            (fills ++ [mkFill order best fillSize.value])

/-- The best ask is above the limit price. -/
def askAbove (best limit : Decimal) : Bool := limit < best

/-- The best bid is below the limit price. -/
def bidBelow (best limit : Decimal) : Bool := best < limit

/-- Turns enough for every book whose orders all have positive size: each turn
takes a unit off the order or an order off the side. -/
def turns (order : Order) (book : OrderBook) (makerSide : OrderSide) : Nat :=
  order.remainingSize.value.toNat + (book.side makerSide).toList.length + 1

/-- Match a buy order against asks. -/
def matchAgainstAsks (order : Order) (book : OrderBook) : Exec (Order × OrderBook × List Fill) :=
  matchAgainst .sell askAbove (turns order book .sell) order book []

/-- Match a sell order against bids. -/
def matchAgainstBids (order : Order) (book : OrderBook) : Exec (Order × OrderBook × List Fill) :=
  matchAgainst .buy bidBelow (turns order book .buy) order book []

/-- Handle the unfilled portion of an order. -/
def handleUnfilled (order : Order) (book : OrderBook) (fills : List Fill) :
    Exec (Except Error Order × OrderBook) :=
  if order.remainingSize.isZero then return (.ok order, book)
  else if order.postOnly ∧ fills ≠ [] then return (.error .postOnlyWouldCross, book)
  else if order.isFok ∧ fills ≠ [] then return (.error .fokNotFilled, book)
  else if order.shouldRest then do
    let book ← book.insert order
    return (.ok order, book)
  else return (.ok { order with status := .canceled }, book)

/-- Process an incoming order through a book. An error leaves the book as matching
left it. -/
def processOrder (order : Order) (book : OrderBook) :
    Exec (Except Error (Order × List Fill) × OrderBook) := do
  let (order, book, fills) ← (match order.side with
    | .buy => matchAgainstAsks order book
    | .sell => matchAgainstBids order book)
  let (r, book) ← handleUnfilled order book fills
  return (r.map fun order => (order, fills), book)

/-! ### The loop as an auction -/

/-- What the auction is told about the resting orders. -/
def rules (order : Order) (noCross : Decimal → Decimal → Bool) : Auction.Rules Order where
  own best := best.owner = order.owner
  crosses best := !noCross best.price order.price
  size best := best.remainingSize.value

/-- A resting order after a partial fill. -/
def shrunk (o : Order) (f : Int) : Order :=
  { o with
    remainingSize := ⟨o.remainingSize.value - f, o.remainingSize.decimals⟩
    status := .partiallyFilled }

/-- The orders of a side, best first. -/
def sideList (book : OrderBook) (s : OrderSide) : List Order := (book.side s).toList.map (·.2)

/-- `order'` is `order` after some fills: only remaining size and status differ. -/
def FilledFrom (order order' : Order) : Prop :=
  order' = { order with remainingSize := order'.remainingSize, status := order'.status } ∧
    order'.remainingSize.decimals = order.remainingSize.decimals

theorem FilledFrom.refl (order : Order) : FilledFrom order order := ⟨rfl, rfl⟩

variable {o₁ o₂ best order order' : Order} {book book' : OrderBook} {s : OrderSide}
  {fuel : Nat} {fills fills' : List Fill} {r : Except Error (Order × List Fill)}

theorem FilledFrom.trans {o₃ : Order} (h : FilledFrom o₁ o₂) (h' : FilledFrom o₂ o₃) :
    FilledFrom o₁ o₃ := by
  refine ⟨?_, h'.2.trans h.2⟩
  rw [h'.1, h.1]

theorem FilledFrom.mkFill (h : FilledFrom o₁ o₂) :
    MatchingEngine.mkFill o₂ = MatchingEngine.mkFill o₁ := by
  rw [h.1]
  rfl

theorem FilledFrom.rules (h : FilledFrom o₁ o₂) (noCross : Decimal → Decimal → Bool) :
    MatchingEngine.rules o₂ noCross = MatchingEngine.rules o₁ noCross := by
  rw [h.1]
  rfl

theorem fill_filledFrom {o o' : Order} {size : Decimal} (h : o.fill size = .ok o') :
    FilledFrom o o' ∧ o'.remainingSize.value = o.remainingSize.value - size.value := by
  obtain ⟨h1, h2⟩ := Order.fill_eq_ok h
  refine ⟨⟨h1, ?_⟩, ?_⟩ <;> rw [h2]

/-- The best order heads the list of its side, and removing it leaves the tail. -/
theorem best_cons (hb : book.WF) (h : book.best s = some best) :
    sideList book s = best :: sideList (book.remove best.id).2 s := by
  obtain ⟨hg, hs⟩ := hb.best_spec h
  cases hl : (book.side s).toList with
  | nil => simp [OrderBook.best, hl] at h
  | cons p l =>
    obtain ⟨k, o⟩ := p
    simp only [OrderBook.best, hl, List.head?_cons, Option.map_some, Option.some.injEq] at h
    subst h
    have hm : (k, o) ∈ (book.side s).toList := by
      rw [hl]
      exact .head _
    obtain ⟨-, -, hk⟩ := hb.mem_side_iff.mp (FinMap.mem_toList.mp hm)
    unfold sideList
    rw [hb.side_remove hg, if_pos hs, ← hk, FinMap.toList_erase_head hl, hl]
    rfl

/-- What a match leaves of the resting order. -/
theorem fillResting_spec {f : Decimal} (hb : book.WF) (hg : book.get best.id = some best)
    (h : fillResting book best f = .ok book') :
    book'.WF ∧ (∀ id, book'.get id = if best.id = id then
        (if best.remainingSize.value = f.value then none else some (shrunk best f.value))
      else book.get id) ∧
    (best.remainingSize.value = f.value → book' = (book.remove best.id).2) := by
  obtain ⟨r, hr, h⟩ := bind_inv h
  obtain ⟨-, rfl⟩ := Decimal.sub_eq_ok.mp hr
  by_cases hz : best.remainingSize.value = f.value
  · have hzero : best.remainingSize.value - f.value = 0 := by omega
    rw [if_pos (by simpa [Decimal.isZero] using hzero)] at h
    obtain rfl := pure_inv h
    obtain ⟨hwf, -, hget⟩ := hb.remove best.id
    refine ⟨hwf, fun id => ?_, fun _ => rfl⟩
    rw [hget, if_pos hz]
  · have hnz : best.remainingSize.value - f.value ≠ 0 := by omega
    rw [if_neg (by simpa [Decimal.isZero] using hnz)] at h
    obtain ⟨o', ho', hwf, hget, -⟩ :=
      hb.modify hg (fun o' h => Order.fill_samePlace h) h
    have ho : o' = shrunk best f.value := by
      obtain ⟨q, hq, ho'⟩ := bind_inv ho'
      obtain ⟨-, rfl⟩ := Decimal.sub_eq_ok.mp hq
      rw [← pure_inv ho', shrunk]
      simp only [Decimal.isZero, beq_iff_eq, hnz, if_false]
    refine ⟨hwf, fun id => ?_, fun h => absurd h hz⟩
    rw [hget, if_neg hz, ho]

/-- **The loop is the auction.** Taker, fills and book after the loop are those of
the walk down the maker side. -/
theorem matchAgainst_walk {noCross : Decimal → Decimal → Bool} (hb : book.WF)
    (h : matchAgainst s noCross fuel order book fills = .ok (order', book', fills')) :
    let w := Auction.walk (rules order noCross) (sideList book s) order.remainingSize.value
    FilledFrom order order' ∧ order'.remainingSize.value = w.unfilled ∧
      fills' = fills ++ w.taken.map (fun p => mkFill order p.1 p.2) ∧ book'.WF ∧
      ∀ id, book'.get id = (book.get id).bind (w.leaves (rules order noCross) shrunk) := by
  induction fuel generalizing order book fills with
  | zero => exact absurd h (by simp [matchAgainst])
  | succ fuel ih =>
    have hstop : ∀ {u : Int}, (order, book, fills) = (order', book', fills') →
        u = order.remainingSize.value →
        FilledFrom order order' ∧ order'.remainingSize.value = u ∧
          fills' = fills ++ ([] : List (Order × Int)).map (fun p => mkFill order p.1 p.2) ∧
          book'.WF ∧ ∀ id, book'.get id =
            (book.get id).bind ((⟨[], [], u⟩ : Auction.Outcome Order).leaves
              (rules order noCross) shrunk) := by
      rintro u h rfl
      obtain ⟨rfl, rfl, rfl⟩ : order = order' ∧ book = book' ∧ fills = fills' := by
        simpa using h
      refine ⟨.refl _, rfl, by simp, hb, fun id => ?_⟩
      cases book.get id <;> simp [Auction.Outcome.leaves]
    unfold matchAgainst at h
    split at h
    · -- nothing left to fill
      rename_i hz
      rw [Decimal.isZero_iff] at hz
      have hw : Auction.walk (rules order noCross) (sideList book s) order.remainingSize.value =
          ⟨[], [], order.remainingSize.value⟩ := by
        cases sideList book s with
        | nil => rfl
        | cons a as => rw [Auction.walk, if_pos (.inl hz)]
      rw [hw]
      exact hstop (pure_inv h) rfl
    · rename_i hz
      simp only [Decimal.isZero_iff] at hz
      cases hbest : book.best s with
      | none =>
        simp only [hbest] at h
        have hl : sideList book s = [] := by
          unfold OrderBook.best at hbest
          unfold sideList
          cases hl : (book.side s).toList with
          | nil => rfl
          | cons p l => simp [hl] at hbest
        rw [hl]
        exact hstop (pure_inv h) rfl
      | some best =>
        simp only [hbest] at h
        obtain ⟨hg, hs⟩ := hb.best_spec hbest
        have hother : ∀ {id o}, best.id ≠ id → book.get id = some o → best ≠ o := by
          rintro id o hid hgo rfl
          exact hid (hb.get_id hgo)
        rw [best_cons hb hbest, Auction.walk]
        split at h
        · -- prices do not cross
          rename_i hc
          rw [if_pos (.inr (by simpa [rules] using hc))]
          exact hstop (pure_inv h) rfl
        · rename_i hc
          rw [if_neg (by simpa [rules, hz] using hc)]
          obtain ⟨hwf, -, hrem⟩ := hb.remove best.id
          split at h
          · -- the taker's own order is removed
            rename_i hown
            rw [if_pos (by simpa [rules] using hown)]
            obtain ⟨h1, h2, h3, h4, h5⟩ := ih hwf h
            refine ⟨h1, h2, h3, h4, fun id => ?_⟩
            rw [h5, hrem]
            split
            · rename_i hid
              rw [← hid, hg, Option.bind_some, Auction.leaves_drop_self, Option.bind_none]
            · rename_i hid
              cases hgo : book.get id with
              | none => rfl
              | some o =>
                rw [Option.bind_some, Option.bind_some, Auction.leaves_drop_ne (hother hid hgo)]
          · rename_i hown
            rw [if_neg (by simpa [rules] using hown)]
            obtain ⟨o₁, ho₁, h⟩ := bind_inv h
            obtain ⟨b₁, hb₁, h⟩ := bind_inv h
            obtain ⟨hfrom, hval⟩ := fill_filledFrom ho₁
            obtain ⟨hwf₁, hget₁, hfull⟩ := fillResting_spec hb hg hb₁
            rw [Decimal.min_value] at hval hget₁ hfull h
            obtain ⟨h1, h2, h3, h4, h5⟩ := ih hwf₁ h
            rw [hfrom.rules, hfrom.mkFill] at h3
            rw [hfrom.rules] at h2 h5
            by_cases hle : order.remainingSize.value ≤ best.remainingSize.value
            · -- the taker is filled: the next turn stops
              rw [if_pos hle] at hval hget₁ hfull h3
              have hw : Auction.walk (rules order noCross) (sideList b₁ s)
                  o₁.remainingSize.value = ⟨[], [], 0⟩ := by
                have h0 : o₁.remainingSize.value = 0 := by omega
                rw [h0]
                cases sideList b₁ s with
                | nil => rfl
                | cons a as => rw [Auction.walk, if_pos (.inl rfl)]
              rw [hw] at h2 h3 h5
              rw [if_pos (by exact hle)]
              refine ⟨hfrom.trans h1, h2, by simpa using h3, h4, fun id => ?_⟩
              rw [h5, hget₁]
              split
              · rename_i hid
                rw [← hid, hg, Option.bind_some, Auction.leaves_take_last]
                split
                · rename_i he
                  simp [rules, he]
                · rename_i he
                  simp [rules, he]
              · rename_i hid
                cases hgo : book.get id with
                | none => rfl
                | some o =>
                  rw [Option.bind_some, Option.bind_some, Auction.leaves_nil,
                    Auction.leaves_take_ne (w := ⟨[], [], 0⟩) (hother hid hgo), Auction.leaves_nil]
            · -- the resting order is used up
              rw [if_neg hle] at hval hget₁ hfull h3
              rw [if_neg (by exact hle)]
              have hb₁' : b₁ = (book.remove best.id).2 := hfull rfl
              rw [hb₁', hval] at h2 h3 h5
              refine ⟨hfrom.trans h1, h2, by simpa [rules] using h3, h4, fun id => ?_⟩
              rw [h5, hrem]
              split
              · rename_i hid
                rw [← hid, hg, Option.bind_some]
                exact Auction.leaves_take_all.symm
              · rename_i hid
                cases hgo : book.get id with
                | none => rfl
                | some o =>
                  rw [Option.bind_some, Option.bind_some]
                  exact (Auction.leaves_take_ne (hother hid hgo)).symm

/-- The side an order takes from. -/
def makerSide : OrderSide → OrderSide
  | .buy => .sell
  | .sell => .buy

/-- The test that ends the matching of an order. -/
def noCross : OrderSide → Decimal → Decimal → Bool
  | .buy => askAbove
  | .sell => bidBelow

/-- The auction of an order in a book. -/
def auction (order : Order) (book : OrderBook) : Auction.Outcome Order :=
  Auction.walk (rules order (noCross order.side)) (sideList book (makerSide order.side))
    order.remainingSize.value

/-- Everything an auction takes from or drops is found in the book by its id. -/
theorem auction_mem (hb : book.WF) :
    (∀ p ∈ (auction order book).taken, book.get p.1.id = some p.1) ∧
      ∀ o ∈ (auction order book).dropped, book.get o.id = some o := by
  have hside : ∀ o ∈ sideList book (makerSide order.side), book.get o.id = some o := by
    intro o ho
    obtain ⟨⟨k, o'⟩, hp, rfl⟩ := List.mem_map.mp ho
    exact (hb.mem_side_iff.mp (FinMap.mem_toList.mp hp)).1
  exact ⟨fun p hp => hside _ (Auction.walk_mem.1 p hp),
    fun o ho => hside _ (Auction.walk_mem.2 o ho)⟩

/-- The four ways an order ends after matching. -/
theorem handleUnfilled_cases {r : Except Error Order}
    (h : handleUnfilled order book fills = .ok (r, book')) :
    (order.isFilled ∧ r = .ok order ∧ book' = book) ∨
    (order.isFilled = false ∧ fills ≠ [] ∧ book' = book ∧
      ((order.postOnly ∧ r = .error .postOnlyWouldCross) ∨
        (order.isFok ∧ r = .error .fokNotFilled))) ∨
    (order.isFilled = false ∧ order.shouldRest ∧ r = .ok order ∧ book.insert order = .ok book') ∨
    (order.isFilled = false ∧ order.shouldRest = false ∧
      r = .ok { order with status := .canceled } ∧ book' = book) := by
  unfold handleUnfilled at h
  unfold Order.isFilled
  split at h
  · rename_i hz
    obtain ⟨rfl, rfl⟩ := pair_inv h
    exact .inl ⟨hz, rfl, rfl⟩
  · rename_i hz
    rw [Bool.not_eq_true] at hz
    split at h
    · rename_i hp
      obtain ⟨rfl, rfl⟩ := pair_inv h
      exact .inr (.inl ⟨hz, hp.2, rfl, .inl ⟨hp.1, rfl⟩⟩)
    · split at h
      · rename_i hf
        obtain ⟨rfl, rfl⟩ := pair_inv h
        exact .inr (.inl ⟨hz, hf.2, rfl, .inr ⟨hf.1, rfl⟩⟩)
      · split at h
        · rename_i hr
          obtain ⟨b, hb, h⟩ := bind_inv h
          obtain ⟨rfl, rfl⟩ := pair_inv h
          exact .inr (.inr (.inl ⟨hz, hr, rfl, hb⟩))
        · rename_i hr
          rw [Bool.not_eq_true] at hr
          obtain ⟨rfl, rfl⟩ := pair_inv h
          exact .inr (.inr (.inr ⟨hz, hr, rfl, rfl⟩))

/-- Processing is the loop against the other side, and then the order's end. -/
theorem processOrder_cases (h : processOrder order book = .ok (r, book')) :
    ∃ order₁ book₁ fills r₁, matchAgainst (makerSide order.side) (noCross order.side)
        (turns order book (makerSide order.side)) order book [] = .ok (order₁, book₁, fills) ∧
      handleUnfilled order₁ book₁ fills = .ok (r₁, book') ∧
      r = r₁.map fun order => (order, fills) := by
  obtain ⟨⟨order₁, book₁, fills⟩, hmatch, h⟩ := bind_inv h
  obtain ⟨⟨r₁, book₂⟩, hun, h⟩ := bind_inv h
  obtain ⟨rfl, rfl⟩ := pair_inv h
  refine ⟨order₁, book₁, fills, r₁, ?_, hun, rfl⟩
  cases hs : order.side <;> rw [hs] at hmatch <;> exact hmatch

/-- **Processing is the auction, then the order's end.** -/
theorem processOrder_spec (hb : book.WF) (h : processOrder order book = .ok (r, book')) :
    let w := auction order book
    let fills := w.taken.map fun p => mkFill order p.1 p.2
    ∃ order₁ book₁ r₁, FilledFrom order order₁ ∧ order₁.remainingSize.value = w.unfilled ∧
      book₁.WF ∧ (∀ id, book₁.get id =
        (book.get id).bind (w.leaves (rules order (noCross order.side)) shrunk)) ∧
      handleUnfilled order₁ book₁ fills = .ok (r₁, book') ∧
      r = r₁.map fun order => (order, fills) := by
  obtain ⟨order₁, book₁, fills₁, r₁, hloop, hun, rfl⟩ := processOrder_cases h
  obtain ⟨h1, h2, h3, h4, h5⟩ := matchAgainst_walk hb hloop
  rw [List.nil_append] at h3
  rw [h3] at hun
  exact ⟨order₁, book₁, r₁, h1, h2, h4, h5, hun, by rw [h3]; rfl⟩

/-! ### What matching does in any book -/

/-- The record of a match of `order` with a resting order that satisfies `P`. -/
def FillOf (order : Order) (P : Order → Prop) (fill : Fill) : Prop :=
  ∃ best size, P best ∧ best.owner ≠ order.owner ∧ fill = mkFill order best size

theorem fillResting_cases {f : Decimal} (h : fillResting book best f = .ok book') :
    book' = (book.remove best.id).2 ∨ book.modify best.id (·.fill f) = .ok book' := by
  obtain ⟨r, -, h⟩ := bind_inv h
  split at h
  · exact .inl (pure_inv h).symm
  · exact .inr h

/-- **Loop rule.** What a cancelled resting order and a match keep, the loop keeps. -/
theorem matchAgainst_induction {P : Order → OrderBook → List Fill → Prop}
    {noCross : Decimal → Decimal → Bool} (h0 : P order book fills)
    (hcancel : ∀ o b fs best, b.best s = some best → P o b fs → P o (b.remove best.id).2 fs)
    (hmatch : ∀ o o₁ b b₁ fs best, b.best s = some best → best.owner ≠ o.owner →
      o.fill (o.remainingSize.min best.remainingSize) = .ok o₁ →
      fillResting b best (o.remainingSize.min best.remainingSize) = .ok b₁ → P o b fs →
      P o₁ b₁ (fs ++ [mkFill o best (o.remainingSize.min best.remainingSize).value]))
    (h : matchAgainst s noCross fuel order book fills = .ok (order', book', fills')) :
    P order' book' fills' := by
  induction fuel generalizing order book fills with
  | zero => exact absurd h (by simp [matchAgainst])
  | succ fuel ih =>
    have hstop : (order, book, fills) = (order', book', fills') → P order' book' fills' := by
      intro h
      obtain ⟨rfl, rfl, rfl⟩ : order = order' ∧ book = book' ∧ fills = fills' := by simpa using h
      exact h0
    unfold matchAgainst at h
    split at h
    · exact hstop (pure_inv h)
    · cases hbest : book.best s with
      | none =>
        simp only [hbest] at h
        exact hstop (pure_inv h)
      | some best =>
        simp only [hbest] at h
        split at h
        · exact hstop (pure_inv h)
        · split at h
          · exact ih (hcancel _ _ _ _ hbest h0) h
          · rename_i hown
            obtain ⟨o₁, ho₁, h⟩ := bind_inv h
            obtain ⟨b₁, hb₁, h⟩ := bind_inv h
            exact ih (hmatch _ _ _ _ _ _ hbest hown ho₁ hb₁ h0) h

/-- **Matching, well formed or not.** A property of resting orders that fills keep is
kept, and every fill is of the order with a resting order that has the property. -/
theorem matchAgainst_all {P : Order → Prop} {noCross : Decimal → Decimal → Bool}
    (hP : ∀ o o' size, P o → o.fill size = .ok o' → P o') (hb : book.AllOrders P)
    (hfills : ∀ f ∈ fills, FillOf order P f)
    (h : matchAgainst s noCross fuel order book fills = .ok (order', book', fills')) :
    FilledFrom order order' ∧ book'.AllOrders P ∧ ∀ f ∈ fills', FillOf order P f := by
  refine matchAgainst_induction
    (P := fun o b fs => FilledFrom order o ∧ b.AllOrders P ∧ ∀ f ∈ fs, FillOf order P f)
    ⟨.refl _, hb, hfills⟩ ?_ ?_ h
  · exact fun o b fs best _ hx => ⟨hx.1, hx.2.1.remove _, hx.2.2⟩
  · intro o o₁ b b₁ fs best hbest hown ho₁ hb₁ hx
    obtain ⟨hfrom, hall, hfs⟩ := hx
    refine ⟨hfrom.trans (fill_filledFrom ho₁).1, ?_, fun f hf => ?_⟩
    · rcases fillResting_cases hb₁ with rfl | hb₁
      · exact hall.remove _
      · exact hall.modify (fun o o' ho h => hP o o' _ ho h) hb₁
    · rcases List.mem_append.mp hf with hf | hf
      · exact hfs f hf
      · obtain rfl := List.mem_singleton.mp hf
        have howner : o.owner = order.owner := by rw [hfrom.1]
        exact ⟨best, _, hall.best hbest, fun heq => hown (heq.trans howner.symm),
          by rw [hfrom.mkFill]⟩

/-- The same for the whole processing; the order itself may join the book. -/
theorem processOrder_all {P : Order → Prop} (hP : ∀ o o' size, P o → o.fill size = .ok o' → P o')
    (hb : book.AllOrders P) (horder : ∀ o', FilledFrom order o' → P o')
    (h : processOrder order book = .ok (r, book')) :
    book'.AllOrders P ∧ ∀ updated fills, r = .ok (updated, fills) →
      FilledFrom order updated ∧ ∀ f ∈ fills, FillOf order P f := by
  obtain ⟨order₁, book₁, fills₁, r₁, hmatch, hun, rfl⟩ := processOrder_cases h
  obtain ⟨hfrom, hb₁, hfills⟩ := matchAgainst_all hP hb (by simp) hmatch
  have hres : ∀ updated fills, (Except.ok order₁ : Except Error Order).map (·, fills₁) =
      .ok (updated, fills) → FilledFrom order updated ∧ ∀ f ∈ fills, FillOf order P f := by
    intro updated fills heq
    obtain ⟨rfl, rfl⟩ := Prod.mk.inj (Except.ok.inj heq)
    exact ⟨hfrom, hfills⟩
  rcases handleUnfilled_cases hun with ⟨-, rfl, rfl⟩ | ⟨-, -, rfl, ⟨-, rfl⟩ | ⟨-, rfl⟩⟩ |
    ⟨-, -, rfl, hins⟩ | ⟨-, -, rfl, rfl⟩
  · exact ⟨hb₁, hres⟩
  · exact ⟨hb₁, fun _ _ heq => absurd heq (by simp [Except.map])⟩
  · exact ⟨hb₁, fun _ _ heq => absurd heq (by simp [Except.map])⟩
  · exact ⟨hb₁.insert (horder _ hfrom) hins, hres⟩
  · refine ⟨hb₁, fun updated fills heq => ?_⟩
    obtain ⟨rfl, rfl⟩ := Prod.mk.inj (Except.ok.inj heq)
    exact ⟨hfrom.trans ⟨rfl, rfl⟩, hfills⟩

/-- No fill is with an order of the same owner. -/
theorem processOrder_fillOf {updated : Order}
    (h : processOrder order book = .ok (.ok (updated, fills), book')) :
    ∀ f ∈ fills, ∃ best size, best.owner ≠ order.owner ∧ f = mkFill order best size := by
  intro f hf
  obtain ⟨best, size, -, hown, rfl⟩ := ((processOrder_all (P := fun _ => True)
    (fun _ _ _ _ _ => trivial) (fun _ _ _ _ => trivial) (fun _ _ => trivial) h).2 updated fills
    rfl).2 f hf
  exact ⟨best, size, hown, rfl⟩

end MatchingEngine

/-- The matching engine's own books. Orders are matched in the books of the engine
state; these are only created with a market and consulted by cancellation. -/
structure MatchingEngine where
  orderbooks : FinMap MarketId OrderBook

namespace MatchingEngine

def new : MatchingEngine := ⟨∅⟩

/-- Add an orderbook for a market. -/
def addOrderbook (m : MatchingEngine) (marketId : MarketId) : MatchingEngine :=
  ⟨m.orderbooks.insert marketId .new⟩

/-- Remove an order from the book of a market. -/
def removeFromBook (m : MatchingEngine) (marketId : MarketId) (order : Order) :
    Except Error Unit × MatchingEngine :=
  match m.orderbooks[marketId]? with
  | none => (.error (.marketNotFound marketId), m)
  | some book => (.ok (), ⟨m.orderbooks.insert marketId (book.remove order.id).2⟩)

end MatchingEngine

end Hypercore
