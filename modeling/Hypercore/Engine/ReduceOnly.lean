import Hypercore.Engine.Equity
import Hypercore.Engine.Holders
import Hypercore.Engine.Ledger
import Hypercore.Engine.OpenInterestRun
import Hypercore.Engine.StoresRun
import Hypercore.Engine.TimeInForce
/-!
# Hypercore.Engine.ReduceOnly

Reduce-only orders.

The flag is looked at once, when the order is placed, and then only the side of the order is
compared with the position (`wouldIncrease`). Its size may exceed the position, and while it
rests the position may be closed or turned.

**When the flag keeps its promise.** What an order takes from which resting orders is known
from its size and the book before it is matched (`takesOf`). Each take moves the positions of
both its owners, so those of a reduce-only order shrink as long as what is taken so far fits in
the position that its owner has before the matching, on the opposite side (`TakesFit`).
`Progress` says where the positions are after some of the takes, and one take shrinks them
exactly when it fits (`reduceOnlyKept_iff`).
-/

namespace Hypercore

open Exec Int128

namespace Engine

open EngineState MatchingEngine

/-- A size that moves towards zero and not past it. -/
def Shrinks (before after : Int) : Prop := |after| ≤ |before| ∧ 0 ≤ before * after

instance (before after : Int) : Decidable (Shrinks before after) :=
  inferInstanceAs (Decidable (_ ∧ _))

/-- Whether the maker of a fill is a reduce-only order of the book. -/
def makerReduceOnly (book : OrderBook) (fill : Fill) : Bool :=
  book.getAllOrders.any fun o => o.id = fill.makerOrderId && o.reduceOnly

/-- A fill shrinks the positions of those of its parties whose order is reduce-only. -/
def ReduceOnlyKept (order : Order) (book : OrderBook) : FillCond := fun e fill =>
  After (e.applyFill fill) fun e' =>
    (order.reduceOnly → Shrinks (e.state.sizeAt fill.taker fill.marketId)
      (e'.state.sizeAt fill.taker fill.marketId)) ∧
    (makerReduceOnly book fill → Shrinks (e.state.sizeAt fill.maker fill.marketId)
      (e'.state.sizeAt fill.maker fill.marketId))

instance (order : Order) (book : OrderBook) (e : Engine) (fill : Fill) :
    Decidable (ReduceOnlyKept order book e fill) :=
  inferInstanceAs (Decidable (After (e.applyFill fill) fun e' =>
    (order.reduceOnly → Shrinks (e.state.sizeAt fill.taker fill.marketId)
      (e'.state.sizeAt fill.taker fill.marketId)) ∧
    (makerReduceOnly book fill → Shrinks (e.state.sizeAt fill.maker fill.marketId)
      (e'.state.sizeAt fill.maker fill.marketId))))

/-- The promise: every fill of a matching keeps the reduce-only flags of its orders. -/
def KeptMatch : MatchCond := fun market order book fills e =>
  FillsMeet (ReduceOnlyKept order book) market.config fills e

instance (market : Market) (order : Order) (book : OrderBook) (fills : List Fill) (e : Engine) :
    Decidable (KeptMatch market order book fills e) :=
  inferInstanceAs (Decidable (FillsMeet (ReduceOnlyKept order book) market.config fills e))

/-- What matching an order takes from the orders of a book, in turn. -/
def takesOf (order : Order) (book : OrderBook) : List (Order × Int) :=
  Auction.takes (rules order (noCross order.side)) stays (sideList book (makerSide order.side))
    order.remainingSize.value

/-- The order is taken back when its matching leaves something of it; no fill is settled. -/
def TakenBack (order : Order) (book : OrderBook) : Prop :=
  (order.postOnly ∨ order.isFok) ∧ leftOf order book ≠ some 0

instance (order : Order) (book : OrderBook) : Decidable (TakenBack order book) :=
  inferInstanceAs (Decidable (_ ∧ _))

/-- What an account can trade on a side before its position is closed; negative with a
position on that side. -/
def closable (s : EngineState) (a : AccountAddress) (m : MarketId) (isBuy : Bool) : Int :=
  if isBuy then -s.sizeAt a m else s.sizeAt a m

/-- What some takes come to, each as its fill records it. -/
def taken (takes : List (Order × Int)) : Int := (takes.map fun p => ofU128 (toU128 p.2)).sum

/-- The takes from an account's orders. -/
def takesBy (a : AccountAddress) (takes : List (Order × Int)) : List (Order × Int) :=
  takes.filter fun p => p.1.owner = a

/-- A size within what is closable. -/
def Fits (size closable : Int) : Prop :=
  (0 < size → size ≤ closable) ∧ (size < 0 → closable ≤ size)

instance (size closable : Int) : Decidable (Fits size closable) :=
  inferInstanceAs (Decidable (_ ∧ _))

/-- A take fits in what is left, after the takes `done`, of the positions that the owners of
its reduce-only orders had in `s`. -/
def TakeFits (order : Order) (s : EngineState) (done : List (Order × Int)) (p : Order × Int) :
    Prop :=
  let isBuy : Bool := order.side = .buy
  (order.reduceOnly → Fits (ofU128 (toU128 p.2))
    (closable s order.owner order.marketId isBuy - taken done)) ∧
  (p.1.reduceOnly → Fits (ofU128 (toU128 p.2))
    (closable s p.1.owner order.marketId (!isBuy) - taken (takesBy p.1.owner done)))

instance (order : Order) (s : EngineState) (done : List (Order × Int)) (p : Order × Int) :
    Decidable (TakeFits order s done p) := inferInstanceAs (Decidable (_ ∧ _))

/-- Every take fits, one after the other. -/
def TakesFit (order : Order) (s : EngineState) :
    List (Order × Int) → List (Order × Int) → Prop
  | _, [] => True
  | done, p :: takes => TakeFits order s done p ∧ TakesFit order s (done ++ [p]) takes

instance TakesFit.decidable (order : Order) (s : EngineState) :
    ∀ done takes, Decidable (TakesFit order s done takes)
  | _, [] => .isTrue trivial
  | done, p :: takes =>
    have : Decidable (TakesFit order s (done ++ [p]) takes) := TakesFit.decidable order s _ takes
    inferInstanceAs (Decidable (_ ∧ _))

/-- **The condition**, on the engine before a submission: if the order would be matched and
not be taken back, what it would take fits. -/
def PositionsFit (t : Timestamp) : SubmitCond := fun e account request =>
  e.admits account request → request.triggerPrice = none →
    ∀ book ∈ e.state.getOrderbook request.marketId,
      let order := Order.new e.state.nextOrderId account request t
      ¬ TakenBack order book → TakesFit order e.state [] (takesOf order book)

instance (t : Timestamp) (e : Engine) (a : AccountAddress) (q : OrderRequest) :
    Decidable (PositionsFit t e a q) :=
  inferInstanceAs (Decidable (_ → _ → ∀ book ∈ _, _ → TakesFit _ _ _ _))

/-! ### One fill -/

/-- Moving a size by a trade shrinks it exactly when the trade fits. -/
theorem shrinks_iff_fits {x n : Int} (isBuy : Bool) :
    Shrinks x (x + if isBuy then n else -n) ↔ Fits n (if isBuy then -x else x) := by
  have key : ∀ c : Int, Shrinks c (c - n) ↔ Fits n c := by
    intro c
    unfold Shrinks Fits
    rw [Int.abs_eq_natAbs, Int.abs_eq_natAbs, mul_nonneg_iff]
    omega
  cases isBuy with
  | false => simpa [sub_eq_add_neg] using key x
  | true =>
    have hflip : Shrinks x (x + n) ↔ Shrinks (-x) (-x - n) := by
      unfold Shrinks
      rw [abs_neg, ← abs_neg (-x - n), show -(-x - n) = x + n by omega,
        show -x * (-x - n) = x * (x + n) by ring]
    simpa [hflip] using key (-x)

/-- The sizes that a fill leaves in its market. -/
theorem applyFill_sizeAt {e e' : Engine} {fill : Fill} (hfill : Settleable e.state fill)
    (h : e.applyFill fill = .ok e') (a : AccountAddress) :
    e'.state.sizeAt a fill.marketId = e.state.sizeAt a fill.marketId +
      if a = fill.taker then takerSize fill
      else if a = fill.maker then -takerSize fill else 0 := by
  obtain ⟨s₁, s₂, h1, h2, hpos⟩ := applyFill_legs h
  obtain ⟨p₁, rfl, hp₁⟩ := applyFill_setPosition hfill.maker h1
  have htaker : (e.state.setPosition fill.maker fill.marketId p₁).getPosition fill.taker
      fill.marketId = e.state.getPosition fill.taker fill.marketId := by
    rw [getPosition_setPosition, if_neg (fun hc => hfill.parties hc.1)]
  obtain ⟨p₂, rfl, hp₂⟩ := applyFill_setPosition (by rw [htaker]; exact hfill.taker) h2
  have hsize : e'.state.sizeAt a fill.marketId =
      ((e.state.setPosition fill.maker fill.marketId p₁).setPosition fill.taker fill.marketId
        p₂).sizeAt a fill.marketId := by
    unfold sizeAt
    rw [getPosition_congr hpos]
  rw [hsize]
  simp only [sizeAt_setPosition, and_true] at hp₂ ⊢
  rw [if_neg hfill.parties] at hp₂
  unfold takerSize
  unfold fillSize at hp₁ hp₂
  by_cases ht : a = fill.taker
  · subst ht
    rw [if_pos rfl, if_pos rfl, hp₂]
  · rw [if_neg (Ne.symm ht), if_neg ht]
    by_cases hm : a = fill.maker
    · subst hm
      rw [if_pos rfl, if_pos rfl, hp₁]
      cases fill.isTakerBuy <;> simp
    · rw [if_neg (Ne.symm hm), if_neg hm, add_zero]

/-! ### One matching -/

theorem taken_append (takes : List (Order × Int)) (p : Order × Int) :
    taken (takes ++ [p]) = taken takes + ofU128 (toU128 p.2) := by
  unfold taken
  rw [List.map_append, List.sum_append, List.map_singleton, List.sum_singleton]

theorem takesBy_append (a : AccountAddress) (takes : List (Order × Int)) (p : Order × Int) :
    taken (takesBy a (takes ++ [p])) =
      taken (takesBy a takes) + if p.1.owner = a then ofU128 (toU128 p.2) else 0 := by
  unfold takesBy
  rw [List.filter_append]
  split
  · rename_i ha
    rw [List.filter_cons_of_pos (by simpa using ha), List.filter_nil, taken_append]
  · rename_i ha
    rw [List.filter_cons_of_neg (by simpa using ha), List.filter_nil, List.append_nil, add_zero]

/-- A trade takes its size from what is closable. -/
theorem closable_traded {s s' : EngineState} {a : AccountAddress} {m : MarketId} {n : Int}
    (isBuy : Bool) (h : s'.sizeAt a m = s.sizeAt a m + if isBuy then n else -n) :
    closable s' a m isBuy = closable s a m isBuy - n := by
  unfold closable
  rw [h]
  cases isBuy
  · simp only [Bool.false_eq_true, if_false]
    omega
  · simp only [if_true]
    omega

theorem neg_takerSize (fill : Fill) :
    -takerSize fill = if !fill.isTakerBuy then ofU128 fill.size else -ofU128 fill.size := by
  unfold takerSize
  cases fill.isTakerBuy <;> simp

/-- The takes `done` of a matching have used up what they traded of the positions in `s`: of
the taker's on the side of the order, of every other account's on the other side. -/
structure Progress (order : Order) (s : EngineState) (done : List (Order × Int))
    (s' : EngineState) : Prop where
  held : Held s s'
  taker : closable s' order.owner order.marketId (order.side = .buy) =
    closable s order.owner order.marketId (order.side = .buy) - taken done
  makers : ∀ a, a ≠ order.owner → closable s' a order.marketId (!decide (order.side = .buy)) =
    closable s a order.marketId (!decide (order.side = .buy)) - taken (takesBy a done)

theorem Progress.start {order : Order} {s s' : EngineState} (hheld : Held s s')
    (hsizes : ∀ a m, s'.sizeAt a m = s.sizeAt a m) : Progress order s [] s' := by
  have hclosable : ∀ a m isBuy, closable s' a m isBuy = closable s a m isBuy - 0 := by
    intro a m isBuy
    unfold closable
    rw [hsizes, sub_zero]
  exact ⟨hheld, hclosable _ _ _, fun _ _ => hclosable _ _ _⟩

section Matching

variable {order : Order} {book : OrderBook} {s : EngineState} {done : List (Order × Int)}
  {e e' : Engine} {f : Fill} {config : MarketConfig} {p : Order × Int}

/-- A take from an order of the book, of another owner who has a position in `s`. -/
structure HeldTake (order : Order) (book : OrderBook) (e : Engine) (p : Order × Int) : Prop where
  other : p.1.owner ≠ order.owner
  maker : (e.state.getPosition p.1.owner order.marketId).isSome
  taker : (e.state.getPosition order.owner order.marketId).isSome
  flag : makerReduceOnly book (mkFill order p.1 p.2) = p.1.reduceOnly

/-- A take moves the sizes of both its parties, and of no one else. -/
theorem HeldTake.traded (hp : HeldTake order book e p)
    (hprice : priceFill e.state config (mkFill order p.1 p.2) = .ok f)
    (h : e.applyFill f = .ok e') :
    e'.state.sizeAt order.owner order.marketId = e.state.sizeAt order.owner order.marketId +
        (if decide (order.side = .buy) then ofU128 (toU128 p.2) else -ofU128 (toU128 p.2)) ∧
      e'.state.sizeAt p.1.owner order.marketId = e.state.sizeAt p.1.owner order.marketId +
        (if !decide (order.side = .buy) then ofU128 (toU128 p.2) else -ofU128 (toU128 p.2)) ∧
      ∀ a, a ≠ order.owner → a ≠ p.1.owner →
        e'.state.sizeAt a order.marketId = e.state.sizeAt a order.marketId := by
  have hready : Settleable e.state (mkFill order p.1 p.2) := ⟨hp.other, hp.maker, hp.taker⟩
  have hpriced := applyFill_sizeAt (hready.priced hprice) h
  obtain ⟨_, _, _, _, rfl⟩ := priceFill_spec hprice
  have hsizes : ∀ a, e'.state.sizeAt a order.marketId = e.state.sizeAt a order.marketId +
      if a = order.owner then takerSize (mkFill order p.1 p.2)
      else if a = p.1.owner then -takerSize (mkFill order p.1 p.2) else 0 := hpriced
  refine ⟨?_, ?_, fun a ht hm => ?_⟩
  · rw [hsizes, if_pos rfl]
    rfl
  · rw [neg_takerSize] at hsizes
    exact (hsizes p.1.owner).trans (by rw [if_neg hp.other, if_pos rfl]; rfl)
  · rw [hsizes, if_neg ht, if_neg hm, add_zero]

/-- One more take. -/
theorem Progress.next (hdone : Progress order s done e.state) (hp : HeldTake order book e p)
    (hprice : priceFill e.state config (mkFill order p.1 p.2) = .ok f)
    (h : e.applyFill f = .ok e') : Progress order s (done ++ [p]) e'.state := by
  obtain ⟨ht, hm, hothers⟩ := hp.traded hprice h
  have hheld := (applyFill_posWrites h).held
  refine ⟨fun a m ha => hheld a m (hdone.held a m ha), ?_, fun a ha => ?_⟩
  · rw [taken_append, closable_traded _ ht, hdone.taker]
    omega
  · rw [takesBy_append]
    by_cases ham : a = p.1.owner
    · subst ham
      rw [if_pos rfl, closable_traded _ hm, hdone.makers _ ha]
      omega
    · rw [if_neg (Ne.symm ham), add_zero, ← hdone.makers a ha]
      unfold closable
      rw [hothers a ha ham]

/-- A take keeps the reduce-only flags exactly when it fits in what is left. -/
theorem reduceOnlyKept_iff (hdone : Progress order s done e.state) (hp : HeldTake order book e p)
    (hprice : priceFill e.state config (mkFill order p.1 p.2) = .ok f)
    (h : e.applyFill f = .ok e') :
    ReduceOnlyKept order book e f ↔ TakeFits order s done p := by
  obtain ⟨ht, hm, -⟩ := hp.traded hprice h
  have hkept : ReduceOnlyKept order book e f ↔
      (order.reduceOnly → Shrinks (e.state.sizeAt order.owner order.marketId)
        (e'.state.sizeAt order.owner order.marketId)) ∧
      (p.1.reduceOnly → Shrinks (e.state.sizeAt p.1.owner order.marketId)
        (e'.state.sizeAt p.1.owner order.marketId)) := by
    unfold ReduceOnlyKept
    rw [h, after_ok, ← hp.flag]
    obtain ⟨_, _, _, _, rfl⟩ := priceFill_spec hprice
    exact .rfl
  unfold TakeFits
  dsimp only
  rw [hkept, ht, hm, shrinks_iff_fits, shrinks_iff_fits, ← hdone.taker, ← hdone.makers _ hp.other]
  exact .rfl

/-- **One matching.** Takes that fit keep the flags, whatever becomes of the matching; and if
every fill is applied, the flags are only kept by takes that fit. The induction is on the
takes, with `Progress` after those that are done. -/
theorem fillsMeet_of_fit {takes : List (Order × Int)} (hdone : Progress order s done e.state)
    (htakes : ∀ p ∈ takes, HeldTake order book e p) :
    (TakesFit order s done takes → FillsMeet (ReduceOnlyKept order book) config
        (takes.map fun p => mkFill order p.1 p.2) e) ∧
      ∀ fills e', settleFills config (takes.map fun p => mkFill order p.1 p.2) e =
          .ok (fills, e') →
        FillsMeet (ReduceOnlyKept order book) config (takes.map fun p => mkFill order p.1 p.2) e →
        TakesFit order s done takes := by
  induction takes generalizing done e with
  | nil => exact ⟨fun _ => trivial, fun _ _ _ _ => trivial⟩
  | cons p takes ih =>
    have hp := htakes p (.head _)
    have hrest : ∀ {f e₁}, e.applyFill f = .ok e₁ → ∀ p ∈ takes, HeldTake order book e₁ p := by
      intro f e₁ happly p' hp'
      have hheld := (applyFill_posWrites happly).held
      obtain ⟨hother, hmaker, htaker, hflag⟩ := htakes p' (.tail _ hp')
      exact ⟨hother, hheld _ _ hmaker, hheld _ _ htaker, hflag⟩
    constructor
    · intro hfit f hprice
      refine ⟨fun e₁ happly => ?_, fun e₁ happly => ?_⟩
      · exact (reduceOnlyKept_iff hdone hp hprice happly).mpr hfit.1 e₁ happly
      · exact (ih (hdone.next hp hprice happly) (hrest happly)).1 hfit.2
    · intro fills e' hsettle hmeets
      obtain ⟨f, hprice, hsettle⟩ := bind_inv hsettle
      obtain ⟨e₁, happly, hsettle⟩ := bind_inv hsettle
      obtain ⟨⟨rest, e₂⟩, hsettle, -⟩ := bind_inv hsettle
      obtain ⟨hkept, hmore⟩ := hmeets f hprice
      exact ⟨(reduceOnlyKept_iff hdone hp hprice happly).mp hkept,
        (ih (hdone.next hp hprice happly) (hrest happly)).2 _ _ hsettle (hmore e₁ happly)⟩

end Matching

/-! ### Submissions, operations and runs -/

/-- In a standing book the flag of a fill's maker is that of the order it was taken from. -/
theorem makerReduceOnly_mkFill {book : OrderBook} (hb : book.Standing) {side : OrderSide}
    {order maker : Order} {size : Int} (hmaker : maker ∈ sideList book side) :
    makerReduceOnly book (mkFill order maker size) = maker.reduceOnly := by
  obtain ⟨⟨k, o⟩, hk, rfl⟩ := List.mem_map.mp hmaker
  have ho := FinMap.mem_toList.mp hk
  rw [Bool.eq_iff_iff]
  unfold makerReduceOnly
  rw [List.any_eq_true]
  constructor
  · rintro ⟨o', ho', hflag⟩
    obtain ⟨t, k', hk'⟩ := OrderBook.mem_getAllOrders.mp ho'
    rw [Bool.and_eq_true, decide_eq_true_eq] at hflag
    obtain ⟨rfl, rfl⟩ := hb.ids _ _ _ _ _ _ hk' ho hflag.1
    obtain rfl := Option.some.inj (hk'.symm.trans ho)
    exact hflag.2
  · intro hflag
    exact ⟨o, OrderBook.mem_getAllOrders.mpr ⟨side, k, ho⟩, by simpa [mkFill] using hflag⟩

/-- The fills of an order are its takes; they are lost exactly when it is taken back with
something left of it. -/
theorem processOrder_takes {order : Order} {book book' : OrderBook}
    {r : Except Error (Order × List Fill)} (hb : book.Standing)
    (h : processOrder order book = .ok (r, book')) :
    (∀ updated fills, r = .ok (updated, fills) →
      fills = (takesOf order book).map (fun p => mkFill order p.1 p.2) ∧
        (TakenBack order book → fills = [])) ∧
      ∀ err, r = .error err → TakenBack order book := by
  obtain ⟨order₁, b₁, fills₁, r₁, hmatch, hun, rfl⟩ := processOrder_cases h
  obtain ⟨hleft, htakes⟩ := matchAgainst_sweep hb hmatch
  have hleft : leftOf order book = some order₁.remainingSize.value := hleft
  obtain ⟨hfrom, -, -⟩ := matchAgainst_all (P := fun _ => True) (fun _ _ _ _ _ => trivial)
    (fun _ _ _ _ => trivial) (by simp) hmatch
  have hkind : order.postOnly ∨ order.isFok ↔ order₁.postOnly ∨ order₁.isFok := by
    rw [hfrom.1]
    exact .rfl
  constructor
  · intro updated fills hr
    cases r₁ with
    | error err => cases hr
    | ok o =>
      obtain ⟨rfl, rfl⟩ := Prod.mk.inj (Except.ok.inj hr)
      refine ⟨htakes, fun hback => handleUnfilled_strict hun (fun hz => hback.2 ?_)
        (hkind.mp hback.1)⟩
      rw [hleft, hz]
  · intro err hr
    cases r₁ with
    | ok o => cases hr
    | error err₁ =>
      rcases handleUnfilled_cases hun with ⟨-, hr, -⟩ | ⟨hopen, -, -, hkind₁⟩ | ⟨-, -, hr, -⟩ |
        ⟨-, -, hr, -⟩
      · cases hr
      · refine ⟨hkind.mpr (hkind₁.imp And.left And.left), fun hfilled => ?_⟩
        have hz := Option.some.inj (hleft.symm.trans hfilled)
        exact absurd hz (by simpa [Order.isFilled, Decimal.isZero] using hopen)
      · cases hr
      · cases hr

section Execute

variable {e e' : Engine} {s : EngineState} {market : Market} {order updated : Order}
  {book book' : OrderBook} {fills : List Fill} (hs : BookHolders e.state)
  (hbooks : e.state.maps.BooksMeet fun _ b => b.Standing)
  (htaker : (e.state.getPosition order.owner order.marketId).isSome) (hheld : Held s e.state)
  (hsizes : ∀ a m, e.state.sizeAt a m = s.sizeAt a m)

include hs hbooks htaker hheld hsizes in
/-- Before the fills of an order are settled nothing is used up, and every take has its
positions. -/
theorem settle_ready (hbook : e.state.getOrderbook order.marketId = some book)
    (h : processOrder order book = .ok (.ok (updated, fills), book')) :
    let s₁ := syncMakers (e.state.setOrderbook order.marketId book') updated.marketId fills
    Progress order s [] s₁ ∧
      ∀ p ∈ takesOf order book, HeldTake order book { e with state := s₁ } p := by
  have hpos : ∀ a m, (syncMakers (e.state.setOrderbook order.marketId book')
      updated.marketId fills).getPosition a m = e.state.getPosition a m := by
    obtain ⟨_, _, _, hsame⟩ := syncMakers_only (e.state.setOrderbook order.marketId book')
      updated.marketId fills
    rw [hsame]
    exact fun _ _ => rfl
  have hb := hbooks _ book hbook
  refine ⟨.start (fun a m ha => ?_) fun a m => ?_, fun p hp => ?_⟩
  · rw [hpos]
    exact hheld a m ha
  · rw [← hsizes]
    unfold sizeAt
    rw [hpos]
  · have hmem := Auction.takes_mem hp
    obtain ⟨⟨k, o⟩, hk, ho⟩ := List.mem_map.mp hmem
    have hmaker := hs _ _ hbook _ _ _ (FinMap.mem_toList.mp hk)
    dsimp only at ho hmaker
    refine ⟨?_, ?_, ?_, makerReduceOnly_mkFill hb hmem⟩
    · obtain ⟨best, size, hown, hfill⟩ := processOrder_fillOf h (mkFill order p.1 p.2)
        (by rw [((processOrder_takes hb h).1 _ _ rfl).1]; exact List.mem_map.mpr ⟨p, hp, rfl⟩)
      rw [show p.1.owner = best.owner from congrArg Fill.maker hfill]
      exact hown
    · rw [hpos, ← ho]
      exact hmaker
    · rw [hpos]
      exact htaker

include hs hbooks htaker hheld hsizes in
/-- **Execution.** Takes that fit keep the flags, and if the execution returns only they do. -/
theorem executeMeets_iff :
    ((∀ book ∈ e.state.getOrderbook order.marketId, ¬ TakenBack order book →
        TakesFit order s [] (takesOf order book)) → ExecuteMeets KeptMatch market order e) ∧
      ∀ r e', e.executeOrder market order = .ok (r, e') → ExecuteMeets KeptMatch market order e →
        ∀ book ∈ e.state.getOrderbook order.marketId, ¬ TakenBack order book →
          TakesFit order s [] (takesOf order book) := by
  unfold ExecuteMeets
  constructor
  · intro hfit
    split
    · trivial
    · rename_i book hbook
      rintro ⟨r, book'⟩ hx
      cases r with
      | error err => trivial
      | ok of =>
        obtain ⟨updated, fills⟩ := of
        obtain ⟨hstart, htakes⟩ := settle_ready hs hbooks htaker hheld hsizes hbook hx
        obtain ⟨hfills, hback⟩ := (processOrder_takes (hbooks _ book hbook) hx).1 _ _ rfl
        by_cases htaken : TakenBack order book
        · rw [hback htaken]
          trivial
        · show FillsMeet _ _ fills _
          rw [hfills] at hstart htakes ⊢
          exact (fillsMeet_of_fit hstart htakes).1 (hfit book hbook htaken)
  · intro r e' hexec hmeets book hbook hnot
    have hbook : e.state.getOrderbook order.marketId = some book := hbook
    unfold executeOrder at hexec
    rw [hbook] at hexec hmeets
    obtain ⟨⟨r₁, book'⟩, hx, hexec⟩ := bind_inv hexec
    have hmatched := hmeets _ hx
    cases r₁ with
    | error err => exact absurd ((processOrder_takes (hbooks _ book hbook) hx).2 err rfl) hnot
    | ok of =>
      obtain ⟨updated, fills⟩ := of
      obtain ⟨⟨fills', e₁⟩, hset, -⟩ := bind_inv hexec
      obtain ⟨e₂, hsettle, -⟩ := settleOrder_cases hset
      obtain ⟨hstart, htakes⟩ := settle_ready hs hbooks htaker hheld hsizes hbook hx
      obtain ⟨hfills, -⟩ := (processOrder_takes (hbooks _ book hbook) hx).1 _ _ rfl
      have hmet : FillsMeet _ _ fills _ := hmatched
      rw [hfills] at hsettle hstart htakes hmet
      exact (fillsMeet_of_fit hstart htakes).2 _ _ hsettle hmet

end Execute

/-- What the books of a reachable engine satisfy. -/
abbrev BooksInOrder (e : Engine) : Prop := BookHolders e.state ∧ BooksStand e.state

section Submit

variable {e e' : Engine} {a : AccountAddress} {q : OrderRequest} {t : Timestamp}

/-- A request that passed the checks is carried out on the books and sizes there were. -/
theorem enter_inOrder (he : BooksInOrder e) (a : AccountAddress) (m : MarketId) :
    BookHolders (e.enter a m).state ∧
      ((e.enter a m).state.maps.BooksMeet fun _ b => b.Standing) ∧
      Held e.state (e.enter a m).state ∧
      (∀ b k, (e.enter a m).state.sizeAt b k = e.state.sizeAt b k) ∧
      (e.enter a m).state.orderbooks = e.state.orderbooks := by
  have hheld : Held e.state (e.enter a m).state := (openAccount_posWrites e a m).held
  have hbook : (e.enter a m).state.orderbooks = e.state.orderbooks :=
    openAccount_orderbooks e a m
  refine ⟨he.1.of_held hheld hbook, (he.2.enter a m).2.imp fun _ _ hb => hb.standing, hheld,
    fun b k => ?_, hbook⟩
  show (e.openAccount a m).state.sizeAt b k = _
  unfold sizeAt
  rw [getPosition_openAccount]
  split
  · rename_i hk
    obtain ⟨rfl, rfl⟩ := hk
    cases e.state.getPosition a m <;> rfl
  · rfl

/-- **Submission.** Where positions fit, the flags are kept; and if the submission returns,
only there. -/
theorem submitMatched_iff (he : BooksInOrder e) :
    (PositionsFit t e a q → SubmitMatched KeptMatch t e a q) ∧
      ∀ r e', e.submitOrder a q t = .ok (r, e') → SubmitMatched KeptMatch t e a q →
        PositionsFit t e a q := by
  obtain ⟨hs, hbooks, hheld, hsizes, hbook⟩ := enter_inOrder he a q.marketId
  have hexec : ∀ market, _ := fun market =>
    @executeMeets_iff _ _ market (.new e.state.nextOrderId a q t) hs hbooks
      (enter_position e a q.marketId) hheld hsizes
  have hbook : (e.enter a q.marketId).state.getOrderbook q.marketId =
      e.state.getOrderbook q.marketId := congrArg (·[q.marketId]?) hbook
  have hnext : (e.openAccount a q.marketId).state.nextOrderId = e.state.nextOrderId := by
    obtain ⟨_, _, hopen⟩ := openAccount_only e a q.marketId
    rw [hopen]
  constructor
  · rintro h ⟨r, e₁⟩ hprep
    rcases prepareOrder_cases hprep with
      ⟨rfl, err, rfl⟩ | ⟨rfl, market, -, -, ⟨err, -, rfl⟩ | ⟨-, rfl⟩⟩
    · trivial
    · trivial
    rintro ⟨id, s⟩ htake
    obtain ⟨rfl, rfl⟩ := takeOrderId_spec htake
    rw [hnext]
    intro order hnone
    refine (hexec market).1 fun book hm hback => ?_
    refine h (by simp only [admits, hprep]) (by simpa [order, Order.new] using hnone) book ?_ hback
    exact hbook.symm.trans hm
  · intro r e' hsub hmeets hadmits hnone book hm order hback
    obtain ⟨⟨r₁, e₁⟩, hprep, hsub⟩ := bind_inv hsub
    rcases prepareOrder_cases hprep with
      ⟨rfl, err, rfl⟩ | ⟨rfl, market, -, -, ⟨err, -, rfl⟩ | ⟨-, rfl⟩⟩
    · simp [admits, hprep] at hadmits
    · simp [admits, hprep] at hadmits
    obtain ⟨⟨id, s⟩, htake, hsub⟩ := bind_inv hsub
    have hmet := hmeets _ hprep _ htake
    obtain ⟨rfl, rfl⟩ := takeOrderId_spec htake
    rw [hnext] at hsub hmet
    have hplain : ¬ (Order.new e.state.nextOrderId a q t).triggerPrice.isSome := by
      simpa [Order.new] using hnone
    dsimp only at hsub
    rw [if_neg hplain] at hsub
    exact (hexec market).2 r e' hsub (hmet (by simpa using hplain)) book (hbook.trans hm) hback

end Submit

/-- The submissions of a run meet a condition. -/
def RunSubmits (G : Timestamp → SubmitCond) : List Op → Engine → Prop :=
  FoldMeets (fun e op => step op e) (StepSubmits G)

instance (G : Timestamp → SubmitCond) [∀ t e a q, Decidable (G t e a q)] (ops : List Op)
    (e : Engine) : Decidable (RunSubmits G ops e) :=
  inferInstanceAs (Decidable (FoldMeets _ _ ops e))

/-- **Operations.** -/
theorem stepSubmits_kept {e : Engine} {op : Op} (hs : BooksInOrder e)
    (h : StepSubmits PositionsFit e op) : StepSubmits (SubmitMatched KeptMatch) e op := by
  have hsubmit : ∀ t (e : Engine) a q res e', BooksInOrder e →
      e.submitOrder a q t = .ok (res, e') → BooksInOrder e' :=
    fun _ _ _ _ _ _ hs h => ⟨submitOrder_holders hs.1 h, submitOrder_booksStand hs.2 h⟩
  have htake : ∀ (e : Engine) m p, BooksInOrder e → BooksInOrder (e.takeTriggered m p).2 := by
    intro e m p hs
    obtain ⟨_, ht, heq⟩ := takeTriggered_only e m p
    rw [heq]
    exact ⟨hs.1.of_triggers ht, hs.2.of_kept (.of_triggers ht)⟩
  have hkept : ∀ t (e : Engine) a q, BooksInOrder e → PositionsFit t e a q →
      SubmitMatched KeptMatch t e a q := fun _ _ _ _ hs h => (submitMatched_iff hs).1 h
  cases op with
  | placeOrder a q t =>
    exact placeMeets_imp (P := BooksInOrder) (hsubmit t) (hkept t)
      (fun e m p hs h => checkMeets_imp (hsubmit t) htake (hkept t) _ m p hs h) hs h
  | checkTriggers m p t =>
    exact checkMeets_imp (P := BooksInOrder) (hsubmit t) htake (hkept t) _ m p hs h
  | _ => trivial

/-- **Run theorem.** In a run in which, before each submission, positions fit what the order would
take, no fill of a reduce-only order, taken or resting or triggered, increases or turns the
position of its owner. What an order takes is known from the book before the match, and a take
reduces a position exactly when it fits. -/
theorem reduce_only_of_fitting_run {e₀ : Engine} {ops : List Op} (h0 : Fresh e₀)
    (hfit : RunSubmits PositionsFit ops e₀) : RunSubmits (SubmitMatched KeptMatch) ops e₀ := by
  have hrun : ∀ (ops : List Op) (e : Engine), Reachable e →
      RunSubmits PositionsFit ops e → RunSubmits (SubmitMatched KeptMatch) ops e := by
    intro ops
    induction ops with
    | nil => exact fun _ _ _ => trivial
    | cons op ops ih =>
      intro e hreach hfit
      have hstep := stepSubmits_kept ⟨hreach.bookHolders, hreach.booksStand⟩ hfit.1
      obtain ⟨e₁, hf, hr⟩ := hreach
      exact ⟨hstep, fun e' hop => ih e' ⟨e₁, hf, hr.tail op trivial hop⟩ (hfit.2 e' hop)⟩
  exact hrun ops e₀ ⟨e₀, h0, .refl⟩ hfit

/-- The fresh BTC engine and where operations take it. -/
def btcFromTo (ops : List Op) : Exec (Engine × Engine) := do
  let e₀ ← btcEngine none
  let e ← ops.foldlM (fun e op => step op e) e₀
  return (e₀, e)

theorem btcFromTo_eq_ok {ops : List Op} {e₀ e : Engine} (h : btcFromTo ops = .ok (e₀, e)) :
    Fresh e₀ ∧ ops.foldlM (fun e op => step op e) e₀ = .ok e := by
  obtain ⟨e₁, h1, h⟩ := bind_inv h
  obtain ⟨e₂, h2, h⟩ := bind_inv h
  obtain ⟨rfl, rfl⟩ := pair_inv h
  exact ⟨btcEngine_fresh h1, h2⟩

/-- Account 1 buys 0.1 BTC. -/
def longOpened : List Op := [.deposit 1 1000000000000, .deposit 2 1000000000000,
  .placeOrder 2 (limitOrder .sell .gtc 6500000000000 10000000) 5,
  .placeOrder 1 (limitOrder .buy .gtc 6500000000000 10000000) 6]

/-- A reduce-only sell order of account 1. -/
def reduceOnlySell (size : Int) (t : Timestamp) : Op :=
  .placeOrder 1 { limitOrder .sell .gtc 6500000000000 size with reduceOnly := true } t

/-- A reduce-only order that rests and one that takes close a position between them. -/
def closedInTwo : List Op := longOpened ++ [reduceOnlySell 5000000 7,
  .placeOrder 2 (limitOrder .buy .gtc 6500000000000 10000000) 8, reduceOnlySell 5000000 9]

theorem reduce_only_orders_close : ∃ (e₀ e : Engine), Fresh e₀ ∧
    closedInTwo.foldlM (fun e op => step op e) e₀ = .ok e ∧ e.state.sizeAt 1 0 = 0 ∧
    RunSubmits (SubmitMatched KeptMatch) closedInTwo e₀ := by
  obtain ⟨⟨e₀, e⟩, hrun, htest⟩ := exists_of_test (x := btcFromTo closedInTwo)
    (p := fun x => decide (x.2.state.sizeAt 1 0 = 0 ∧ RunSubmits PositionsFit closedInTwo x.1))
    (by decide +kernel)
  obtain ⟨hfresh, hops⟩ := btcFromTo_eq_ok hrun
  obtain ⟨hsize, hfit⟩ := of_decide_eq_true htest
  exact ⟨e₀, e, hfresh, hops, hsize, reduce_only_of_fitting_run hfresh hfit⟩

/-- A reduce-only order of twice the position. -/
def turned : List Op := longOpened ++ [
  .placeOrder 2 (limitOrder .buy .gtc 6500000000000 20000000) 7, reduceOnlySell 20000000 8]

/-- It is accepted, and turns the position. -/
theorem reduce_only_order_turns : ∃ (e₀ e : Engine), Fresh e₀ ∧
    turned.foldlM (fun e op => step op e) e₀ = .ok e ∧ e.state.sizeAt 1 0 = -10000000 ∧
    ¬ RunSubmits (SubmitMatched KeptMatch) turned e₀ := by
  obtain ⟨⟨e₀, e⟩, hrun, htest⟩ := exists_of_test (x := btcFromTo turned)
    (p := fun x => decide (x.2.state.sizeAt 1 0 = -10000000 ∧
      ¬ RunSubmits (SubmitMatched KeptMatch) turned x.1))
    (by decide +kernel)
  obtain ⟨hfresh, hops⟩ := btcFromTo_eq_ok hrun
  obtain ⟨hsize, hturns⟩ := of_decide_eq_true htest
  exact ⟨e₀, e, hfresh, hops, hsize, hturns⟩

end Engine

end Hypercore
