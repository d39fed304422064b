import Hypercore.Engine.OrderFate
import Hypercore.Spot.Alignment
/-!
# Hypercore.Spot.OrderFate

What became of a spot order right after it was placed.
-/

namespace Hypercore

open Exec Int128

namespace SpotEngineState

variable {s s' : SpotEngineState} {m : SpotMarketId} {a : AccountAddress} {q : OrderRequest}
  {time : Timestamp} {order : Order} {fills : List SpotFill}

/-- **What became of an order** that was accepted: it is filled exactly when the other side
covers it, and else a remainder of it is on the book when it is of a kind that rests. -/
theorem placeOrder_fate (hhoused : s.Housed) (hsteady : s.maps.Steady s.nextOrderId)
    (hscaled : s.Scaled) (hplaces : q.size.decimals = 8) (hm : q.marketId = m)
    (h : s.placeOrder a m q time = .ok (.ok (order, fills), s')) :
    (order.isFilled = true → fills ≠ []) ∧ (order.isFilled = true ↔ s.Covers m q) ∧
      (fills = [] ↔ ¬ s.Reaches m q) ∧ order.orderType = q.orderType ∧
      order.fate s'.orderbooks[m]? =
        if order.isFilled then .filled
        else if order.shouldRest then .rests order.id
        else .failed := by
  have hpos : 0 < q.size.value := by
    rcases placeOrder_cases h with ⟨-, err, hr⟩ | ⟨s₁, market, token, reserve, hmarket, hvalid, -⟩
    · cases hr
    · exact validateOrder_pos (hscaled.listed.lot m market hmarket) hvalid
  obtain ⟨book, x, s₂, hp, rfl, rfl⟩ := placedAs h
  obtain ⟨_, _, htaker⟩ := hp.taker
  have hid : x.remaining.id = s.nextOrderId := by
    rw [htaker]
    rfl
  refine ⟨fun hfilled hnil => ?_, hp.covers hsteady, hp.reaches, by rw [htaker]; rfl, ?_⟩
  · -- without fills all of the size is left
    have hleft := hp.remainder
    rw [hnil] at hleft
    unfold Order.isFilled at hfilled
    rw [Decimal.isZero_iff, hleft] at hfilled
    have hzero : filledSize [] = 0 := rfl
    rw [hzero] at hfilled
    have hsize : (Order.new s.nextOrderId a q time).remainingSize.value = q.size.value := rfl
    dsimp only at hfilled
    omega
  · unfold Order.fate
    cases hfilled : x.remaining.isFilled with
    | true => rfl
    | false =>
      rcases hp.rests with ⟨-, hrest, hadd⟩ | ⟨hkind, honly⟩
      · obtain ⟨-, b, hb, hside⟩ := (hp.restsIn_iff hhoused.filed hadd).mpr hm
        have hnonneg : 0 ≤ x.remaining.remainingSize.value := by
          obtain ⟨s₁, market, hmaps, hx⟩ := hp.executed
          have hbooks : s.maps.AllBooks Sized := hscaled.books
          exact (EightPlaces.matchOrder ⟨⟨hplaces, hpos.le⟩, hbooks m book hp.book_eq, by simp⟩
            hx.loop).taker.2
        have hne := Decimal.isZero_eq_false.mp hfilled
        have hcarried := OrderBook.carries_of_side hside (by omega)
        rw [show s'.orderbooks[m]? = some b from hb]
        simp [hcarried, hrest]
      · have hrest : x.remaining.shouldRest = false := by
          rcases hkind with hk | hk
          · rw [hfilled] at hk
            cases hk
          · exact hk
        have hbooks := (hp.steady hsteady).books m
        rw [show s₂.maps.orderbooks = s'.orderbooks from
          (congrArg OrderMaps.orderbooks honly.trades.maps).symm] at hbooks
        have habsent : (s'.orderbooks[m]?).any (·.carries s.nextOrderId) = false := by
          cases hb : s'.orderbooks[m]? with
          | none => rfl
          | some b => exact OrderBook.carries_below (hbooks b hb).below
        rw [hid, habsent, hrest]

end SpotEngineState

end Hypercore
