import Hypercore.Engine.Basic
import Hypercore.Engine.Stranded
/-!
# Hypercore.Engine.TimeInForce

What the time in force of an order promises, and what processing keeps of it.

The rule is looked at after matching, and only when something is left: a post-only order
that crosses orders large enough to fill it completely returns with its fills. Everything
else of the contract holds in every book (`processOrder_inForce`).
-/

namespace Hypercore

open Exec Int128

namespace MatchingEngine

/-- Every entry of the second book stood in the first, up to what fills write. -/
def NothingNew (b b' : OrderBook) : Prop :=
  ∀ (s : OrderSide) (k : OrderKey) (o : Order), (b'.side s)[k]? = some o →
    ∃ o₀ : Order, (b.side s)[k]? = some o₀ ∧ o₀.SamePlace o

/-- The remainder of an order is the only entry that the second book has in addition. -/
structure OnlyRemainder (order updated : Order) (b b' : OrderBook) : Prop where
  rests : (b'.side order.side)[order.rawKey]? = some updated
  others : ∀ (s : OrderSide) (k : OrderKey) (o : Order), (b'.side s)[k]? = some o →
    (s = order.side ∧ k = order.rawKey) ∨ ∃ o₀ : Order, (b.side s)[k]? = some o₀ ∧ o₀.SamePlace o

/-- **The contract** of an order that was processed without error. -/
structure TimeInForceKept (order updated : Order) (fills : List Fill) (b b' : OrderBook) :
    Prop where
  postOnly : order.orderType = .limit .alo → fills = []
  fillOrKill : order.orderType = .limit .fok → updated.isFilled = true ∨ fills = []
  leavesNothing : order.orderType = .limit .ioc ∨ order.orderType = .limit .fok ∨
    order.orderType = .market → NothingNew b b'
  leavesRemainder : order.orderType = .limit .gtc ∨ order.orderType = .limit .alo →
    if updated.isFilled then NothingNew b b' else OnlyRemainder order updated b b'
  sum : (fills.map fun f => (Engine.fillSize f).value).sum =
    order.originalSize.value - updated.remainingSize.value

section Entries

variable {b b' b'' : OrderBook} {best order order' : Order} {s : OrderSide}
  {noCross : Decimal → Decimal → Bool} {fuel : Nat} {fills fills' : List Fill}

theorem NothingNew.refl (b : OrderBook) : NothingNew b b :=
  fun _ _ o h => ⟨o, h, rfl, rfl, rfl, rfl⟩

theorem NothingNew.trans (h : NothingNew b b') (h' : NothingNew b' b'') : NothingNew b b'' := by
  intro s k o ho
  obtain ⟨o₁, h₁, hsame⟩ := h' s k o ho
  obtain ⟨o₀, h₀, hsame'⟩ := h s k o₁ h₁
  exact ⟨o₀, h₀, hsame'.trans hsame⟩

theorem nothingNew_remove (b : OrderBook) (id : OrderId) : NothingNew b (b.remove id).2 :=
  fun _ _ o h => ⟨o, OrderBook.side_remove_subset h, rfl, rfl, rfl, rfl⟩

theorem nothingNew_modify {id : OrderId} {f : Order → Exec Order}
    (hf : ∀ o o', f o = .ok o' → o.SamePlace o') (h : b.modify id f = .ok b') :
    NothingNew b b' := OrderBook.side_modify hf h

theorem nothingNew_fillResting {f : Decimal} (h : fillResting b best f = .ok b') :
    NothingNew b b' := by
  rcases fillResting_cases h with rfl | h
  · exact nothingNew_remove _ _
  · exact nothingNew_modify (fun _ _ hw => Order.fill_samePlace hw) h

/-- The size that a fill records is the one that was matched. -/
theorem fillSize_mkFill {size : Int} (h : InRange size) :
    (Engine.fillSize (mkFill order best size)).value = size :=
  ofU128_toU128 h

/-- A fill leaves a remaining size in the range of `i128`. -/
theorem fill_inRange {o o' : Order} {size : Decimal} (h : o.fill size = .ok o') :
    InRange o'.remainingSize.value := by
  obtain ⟨r, hr, h⟩ := bind_inv h
  obtain ⟨hrange, rfl⟩ := Decimal.sub_eq_ok.mp hr
  obtain rfl := pure_inv h
  exact hrange

/-- **The loop in any book**: no entry is added, and the fills are what the order loses. -/
theorem matchAgainst_keeps (hr : InRange order.remainingSize.value)
    (hb : b.AllOrders fun o => InRange o.remainingSize.value)
    (h : matchAgainst s noCross fuel order b fills = .ok (order', b', fills')) :
    NothingNew b b' ∧ (fills'.map fun f => (Engine.fillSize f).value).sum =
      (fills.map fun f => (Engine.fillSize f).value).sum + order.remainingSize.value -
        order'.remainingSize.value := by
  refine (matchAgainst_induction (P := fun o b₁ fs => (InRange o.remainingSize.value ∧
      b₁.AllOrders fun o => InRange o.remainingSize.value) ∧ NothingNew b b₁ ∧
      (fs.map fun f => (Engine.fillSize f).value).sum =
        (fills.map fun f => (Engine.fillSize f).value).sum + order.remainingSize.value -
          o.remainingSize.value) ⟨⟨hr, hb⟩, .refl _, by omega⟩ ?_ ?_ h).2
  · intro o b₁ fs best _ hx
    obtain ⟨⟨hr, hb⟩, hnew, hsum⟩ := hx
    exact ⟨⟨hr, hb.remove _⟩, hnew.trans (nothingNew_remove _ _), hsum⟩
  · intro o o₁ b₁ b₂ fs best hbest _ ho₁ hb₂ hx
    obtain ⟨⟨hr, hb⟩, hnew, hsum⟩ := hx
    have hall : b₂.AllOrders fun o => InRange o.remainingSize.value := by
      rcases fillResting_cases hb₂ with rfl | hb₂
      · exact hb.remove _
      · exact hb.modify (fun _ _ _ hw => fill_inRange hw) hb₂
    have hsize : InRange (o.remainingSize.min best.remainingSize).value := by
      rw [Decimal.min_value]
      split
      · exact hr
      · exact hb.best hbest
    refine ⟨⟨fill_inRange ho₁, hall⟩, hnew.trans (nothingNew_fillResting hb₂), ?_⟩
    rw [List.map_append, List.sum_append, List.map_singleton, List.sum_singleton,
      fillSize_mkFill hsize, (fill_filledFrom ho₁).2, hsum]
    omega

end Entries

section Process

variable {request : OrderRequest} {id : OrderId} {owner : AccountAddress} {t : Timestamp}
  {order updated : Order} {fills : List Fill} {b b' : OrderBook}

/-- The loop of `process_order`, and the order's end. -/
theorem processOrder_steps (h : processOrder order b = .ok (.ok (updated, fills), b')) :
    ∃ order₁ b₁, matchAgainst (makerSide order.side) (noCross order.side)
        (turns order b (makerSide order.side)) order b [] = .ok (order₁, b₁, fills) ∧
      handleUnfilled order₁ b₁ fills = .ok (.ok updated, b') := by
  obtain ⟨order₁, b₁, fills₁, r, hmatch, hun, hr⟩ := processOrder_cases h
  cases r with
  | error x => cases hr
  | ok o =>
    obtain ⟨rfl, rfl⟩ := Prod.mk.inj (Except.ok.inj hr)
    exact ⟨order₁, b₁, hmatch, hun⟩

/-- Nothing is matched when nothing is left to fill. -/
theorem matchAgainst_zero {s : OrderSide} {noCross : Decimal → Decimal → Bool} {fuel : Nat}
    {order₁ : Order} (hz : order.remainingSize.value = 0)
    (h : matchAgainst s noCross (fuel + 1) order b [] = .ok (order₁, b', fills)) : fills = [] := by
  unfold matchAgainst at h
  rw [if_pos (Decimal.isZero_iff.mpr hz)] at h
  exact (congrArg (·.2.2) (pure_inv h)).symm

/-- Post-only and fill-or-kill orders end well with a remainder only when nothing was
matched. -/
theorem handleUnfilled_strict (h : handleUnfilled order b fills = .ok (.ok updated, b'))
    (hz : order.remainingSize.value ≠ 0) (hstrict : order.postOnly ∨ order.isFok) :
    fills = [] := by
  by_contra hne
  unfold handleUnfilled at h
  rw [if_neg (by simpa [Decimal.isZero_iff] using hz)] at h
  split at h
  · cases pure_inv h
  · rename_i hpost
    split at h
    · cases pure_inv h
    · rename_i hfok
      rcases hstrict with hp | hf
      · exact hpost ⟨hp, hne⟩
      · exact hfok ⟨hf, hne⟩

theorem sum_eq_zero_of_nil (h : fills = []) :
    (fills.map fun f => (Engine.fillSize f).value).sum = 0 := by
  rw [h]
  rfl

/-- **Any book.** All of the contract but the promise of a post-only order. -/
theorem processOrder_inForce (hr : InRange request.size.value)
    (hb : b.AllOrders fun o => InRange o.remainingSize.value)
    (h : processOrder (.new id owner request t) b = .ok (.ok (updated, fills), b'))
    (hpost : request.orderType = .limit .alo → fills = []) :
    TimeInForceKept (.new id owner request t) updated fills b b' := by
  obtain ⟨order₁, b₁, hmatch, hun⟩ := processOrder_steps h
  obtain ⟨hnew, hsum⟩ := matchAgainst_keeps hr hb hmatch
  obtain ⟨hfrom, -, -⟩ := matchAgainst_all (P := fun _ => True) (fun _ _ _ _ _ => trivial)
    (fun _ _ _ _ => trivial) (by simp) hmatch
  generalize hnewOrder : Order.new id owner request t = order at *
  have htype : order.orderType = request.orderType := by rw [← hnewOrder]; rfl
  have horiginal : order.originalSize = order.remainingSize := by rw [← hnewOrder]; rfl
  have hsame : order.SamePlace order₁ := by
    rw [hfrom.1]
    exact ⟨rfl, rfl, rfl, rfl⟩
  have htype₁ : order₁.orderType = order.orderType := by rw [hfrom.1]
  have hrests : order₁.shouldRest = true ↔
      order.orderType = .limit .gtc ∨ order.orderType = .limit .alo := by
    unfold Order.shouldRest
    rw [htype₁]
    cases order.orderType with
    | limit tif => cases tif <;> simp
    | market => simp
  rw [List.map_nil, List.sum_nil, Int.zero_add, ← horiginal] at hsum
  rw [← htype] at hpost
  rcases handleUnfilled_cases hun with ⟨hfilled, hr₁, rfl⟩ | ⟨-, -, -, ⟨-, hr₁⟩ | ⟨-, hr₁⟩⟩ |
    ⟨hnot, hrest, hr₁, hins⟩ | ⟨hnot, hrest, hr₁, rfl⟩
  · -- filled completely
    obtain rfl := Except.ok.inj hr₁
    exact ⟨hpost, fun _ => .inl hfilled, fun _ => hnew, fun _ => by rwa [if_pos hfilled], hsum⟩
  · cases hr₁
  · cases hr₁
  · -- the remainder rests
    obtain rfl := Except.ok.inj hr₁
    have hkind := hrests.mp hrest
    refine ⟨hpost, fun hfok => ?_, fun hkind' => ?_, fun _ => ?_, hsum⟩
    · rcases hkind with h1 | h1 <;> rw [hfok] at h1 <;> cases h1
    · rcases hkind with h1 | h1 <;> rcases hkind' with h2 | h2 | h2 <;> rw [h1] at h2 <;> cases h2
    · rw [if_neg (by rw [hnot]; simp)]
      constructor
      · rw [OrderBook.insert_side hins, hsame.2.1, if_pos rfl, hsame.rawKey,
          FinMap.get_insert_self]
      · intro s k o ho
        rw [OrderBook.insert_side hins, hsame.2.1, hsame.rawKey] at ho
        split at ho
        · rename_i hs
          rw [FinMap.get_insert] at ho
          split at ho
          · rename_i hk
            exact .inl ⟨hs.symm, hk.symm⟩
          · exact .inr (hnew s k o (hs ▸ ho))
        · exact .inr (hnew s k o ho)
  · -- the remainder is cancelled
    obtain rfl := Except.ok.inj hr₁
    have hkind : ¬ (order.orderType = .limit .gtc ∨ order.orderType = .limit .alo) := by
      rw [← hrests, hrest]
      simp
    have hz : order₁.remainingSize.value ≠ 0 := by
      simpa [Order.isFilled, Decimal.isZero] using hnot
    refine ⟨hpost, fun hfok => .inr (handleUnfilled_strict hun hz (.inr ?_)), fun _ => hnew,
      fun hk => absurd hk hkind, hsum⟩
    simp [Order.isFok, htype₁, hfok]

/-- **Time in force.** In every book that operations make, whatever the prices, the contract is
kept unless a post-only order crosses orders that fill it completely. A remainder is handled as
the type of the order says; with none left nothing is checked, which only a post-only order minds.
-/
theorem timeInForce_iff {config : MarketConfig} {s : BookLog} (hs : BookLog.Reachable config s)
    (hb : s.book.AllOrders fun o => InRange o.remainingSize.value)
    (hr : InRange request.size.value)
    (h : processOrder (.new id owner request t) s.book = .ok (.ok (updated, fills), b')) :
    TimeInForceKept (.new id owner request t) updated fills s.book b' ↔
      ¬ (request.orderType = .limit .alo ∧ request.size.value ≠ 0 ∧
        leftOf (.new id owner request t) s.book = some 0) := by
  obtain ⟨order₁, b₁, hmatch, hun⟩ := processOrder_steps h
  have hleft := (matchAgainst_sweep hs.standing hmatch).1
  obtain ⟨-, hsum⟩ := matchAgainst_keeps hr hb hmatch
  rw [List.map_nil, List.sum_nil, Int.zero_add] at hsum
  constructor
  · rintro hkept ⟨halo, hsize, hfilled⟩
    have hzero : order₁.remainingSize.value = 0 := Option.some.inj (hleft.symm.trans hfilled)
    rw [sum_eq_zero_of_nil (hkept.postOnly halo), hzero] at hsum
    exact hsize (by simpa [Order.new] using hsum.symm)
  · intro hcond
    refine processOrder_inForce hr hb h fun halo => ?_
    by_cases hz : order₁.remainingSize.value = 0
    · by_cases hsize : request.size.value = 0
      · exact matchAgainst_zero hsize hmatch
      · exact absurd ⟨halo, hsize, by rw [← hz]; exact hleft⟩ hcond
    · obtain ⟨hfrom, -, -⟩ := matchAgainst_all (P := fun _ => True) (fun _ _ _ _ _ => trivial)
        (fun _ _ _ _ => trivial) (by simp) hmatch
      refine handleUnfilled_strict hun hz (.inl ?_)
      rw [hfrom.1]
      simp [Order.new, halo]

end Process

/-- A post-only request to sell one unit. -/
def postOnlySell (price : Int) : OrderRequest where
  marketId := 0
  side := .sell
  price := ⟨price, 8⟩
  size := ⟨100000000, 8⟩
  orderType := .limit .alo
  reduceOnly := false
  clientOrderId := none
  triggerPrice := none
  triggerDirection := none

/-- The post-only request against a bid for one unit at 65000. -/
def postOnlyRun (price : Int) :
    Exec (BookLog × Except Error (Order × List Fill) × OrderBook) := do
  let s ← BookLog.step (.insert (BookLog.bidAt 1 6500000000000)) .new
  return (s, ← processOrder (.new 2 9 (postOnlySell price) 8) s.book)

theorem postOnlyRun_eq_ok {price : Int} {s : BookLog} {r : Except Error (Order × List Fill)}
    {b' : OrderBook} (h : postOnlyRun price = .ok (s, r, b')) :
    BookLog.Reachable .btcPerp s ∧ (s.book.AllOrders fun o => InRange o.remainingSize.value) ∧
      processOrder (.new 2 9 (postOnlySell price) 8) s.book = .ok (r, b') := by
  obtain ⟨s₁, hs, h⟩ := bind_inv h
  obtain ⟨x, hx, h⟩ := bind_inv h
  obtain ⟨rfl, rfl⟩ := pair_inv h
  have hok : BookLog.Admits .btcPerp .new (.insert (BookLog.bidAt 1 6500000000000)) := by
    intro o ho
    obtain rfl := List.mem_singleton.mp ho
    exact ⟨fun o' ho' => absurd ho' List.not_mem_nil, by decide⟩
  refine ⟨.tail _ .refl hok hs, ?_, hx⟩
  obtain ⟨b, hb, hs⟩ := bind_inv hs
  obtain rfl := pure_inv hs
  exact OrderBook.AllOrders.insert .new (by decide) hb

/-- Above the bid the order rests, without a fill. -/
theorem timeInForce_rests : ∃ s updated fills b', BookLog.Reachable .btcPerp s ∧
    processOrder (.new 2 9 (postOnlySell 6500010000000) 8) s.book =
      .ok (.ok (updated, fills), b') ∧
    TimeInForceKept (.new 2 9 (postOnlySell 6500010000000) 8) updated fills s.book b' := by
  obtain ⟨⟨s, r, b'⟩, hrun, htest⟩ := exists_of_test (x := postOnlyRun 6500010000000)
    (p := fun x => decide ((∃ y ∈ x.2.1.toOption, y.1.isFilled = false) ∧
      leftOf (.new 2 9 (postOnlySell 6500010000000) 8) x.1.book = some 100000000))
    (by decide +kernel)
  obtain ⟨⟨⟨updated, fills⟩, hr, -⟩, hleft⟩ := of_decide_eq_true htest
  obtain ⟨hreach, hall, hprocess⟩ := postOnlyRun_eq_ok hrun
  cases r with
  | error x => cases hr
  | ok y =>
    obtain rfl := Option.some.inj hr
    refine ⟨s, updated, fills, b', hreach, hprocess,
      (timeInForce_iff hreach hall (by decide) hprocess).mpr fun hcond => ?_⟩
    have hfilled := hleft.symm.trans hcond.2.2
    cases hfilled

/-- At the price of the bid the post-only order is filled completely, without error. -/
theorem post_only_takes : ∃ s updated fills b', BookLog.Reachable .btcPerp s ∧
    processOrder (.new 2 9 (postOnlySell 6500000000000) 8) s.book =
      .ok (.ok (updated, fills), b') ∧ fills ≠ [] ∧
    ¬ TimeInForceKept (.new 2 9 (postOnlySell 6500000000000) 8) updated fills s.book b' := by
  obtain ⟨⟨s, r, b'⟩, hrun, htest⟩ := exists_of_test (x := postOnlyRun 6500000000000)
    (p := fun x => decide (∃ y ∈ x.2.1.toOption, y.2 ≠ [])) (by decide +kernel)
  obtain ⟨⟨updated, fills⟩, hr, hfills⟩ := of_decide_eq_true htest
  obtain ⟨hreach, -, hprocess⟩ := postOnlyRun_eq_ok hrun
  cases r with
  | error x => cases hr
  | ok y =>
    obtain rfl := Option.some.inj hr
    exact ⟨s, updated, fills, b', hreach, hprocess, hfills,
      fun hkept => hfills (hkept.postOnly rfl)⟩

end MatchingEngine

end Hypercore
