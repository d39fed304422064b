import Hypercore.Engine.L2
/-!
# Hypercore.Engine.ImpactPrice

The impact price: what a notional pays on average on a side of the book.

`impactPriceBuy` walks the asks and `impactPriceSell` the bids, both best first. `taken`
says in whole numbers what a notional takes of such a list, and `walk_eq_ok` that the walk
adds exactly this up. The sums it divides are right, but the cost starts with the label of
sixteen decimals where every addend has eight, so the quotient stands for a hundred
millionth of the average.
-/

namespace Hypercore

open Exec Int128 MatchingEngine

namespace OrderBook

/-- The loop of the impact price: the notional that is left, the size and the cost so far. -/
def walk : List Order → Decimal → Decimal → Decimal → Exec (Decimal × Decimal)
  | [], _, totalSize, totalCost => return (totalSize, totalCost)
  | order :: rest, remaining, totalSize, totalCost => do
    let orderNotional ← order.price.mul order.remainingSize
    if orderNotional ≤ remaining then do
      let totalSize ← totalSize.add order.remainingSize
      let totalCost ← totalCost.add orderNotional
      let remaining ← remaining.sub orderNotional
      walk rest remaining totalSize totalCost
    else do
      -- partial fill of this level
      let partialSize ← remaining.div order.price
      let totalSize ← totalSize.add partialSize
      let totalCost ← totalCost.add remaining
      return (totalSize, totalCost)

/-- The impact price on a side. -/
def impactPriceOn (orders : FinMap OrderKey Order) (notional : Decimal) :
    Exec (Option Decimal) :=
  if orders.toList = [] ∨ notional.isZero then return none
  else do
    let (totalSize, totalCost) ← walk (orders.toList.map (·.2)) notional
      ⟨0, Decimal.sizeDecimals⟩ ⟨0, Decimal.priceDecimals + Decimal.sizeDecimals⟩
    if totalSize.isZero then return none
    else do
      let price ← totalCost.div totalSize
      return some price

/-- Impact price on the buy side: walk the asks up to the notional. -/
def impactPriceBuy (b : OrderBook) (notional : Decimal) : Exec (Option Decimal) :=
  impactPriceOn b.asks notional

/-- Impact price on the sell side: walk the bids down to the notional. -/
def impactPriceSell (b : OrderBook) (notional : Decimal) : Exec (Option Decimal) :=
  impactPriceOn b.bids notional

/-- The impact price that the orders of a side make. -/
def impactPrice (b : OrderBook) : OrderSide → Decimal → Exec (Option Decimal)
  | .buy => b.impactPriceSell
  | .sell => b.impactPriceBuy

/-! ### What a notional takes -/

/-- What is taken of an order, in raw units. -/
structure Taken where
  price : Int
  size : Int
  cost : Int
  deriving DecidableEq, Repr

/-- The cost of an order, rounded down to a unit. -/
def costOf (o : Order) : Int := o.price.value * o.remainingSize.value / 10 ^ 8

/-- Every order is taken whole as long as its cost is left, and of the next as much as
what is left buys. -/
def taken : Int → List Order → List Taken
  | _, [] => []
  | left, o :: os =>
    if costOf o ≤ left then
      ⟨o.price.value, o.remainingSize.value, costOf o⟩ :: taken (left - costOf o) os
    else [⟨o.price.value, left * 10 ^ 8 / o.price.value, left⟩]

def totalSize (ts : List Taken) : Int := (ts.map (·.size)).sum

def totalCost (ts : List Taken) : Int := (ts.map (·.cost)).sum

/-- The products and the scaled rest that the walk computes are in range. -/
def Computes : Int → List Order → Prop
  | _, [] => True
  | left, o :: os => InRange (o.price.value * o.remainingSize.value) ∧
    if costOf o ≤ left then Computes (left - costOf o) os else InRange (left * 10 ^ 8)

/-- An order on the scales of the book with a positive price and something left to fill. -/
structure Offered (o : Order) : Prop where
  scale : OnScale Decimal.priceDecimals Decimal.sizeDecimals o
  price : 0 < o.price.value
  size : 0 < o.remainingSize.value

@[simp] theorem totalSize_cons (t : Taken) (ts : List Taken) :
    totalSize (t :: ts) = t.size + totalSize ts := List.sum_cons

@[simp] theorem totalCost_cons (t : Taken) (ts : List Taken) :
    totalCost (t :: ts) = t.cost + totalCost ts := List.sum_cons

section Offered

variable {o : Order} {os : List Order} {left : Int}

theorem Offered.cost_nonneg (h : Offered o) : 0 ≤ costOf o :=
  Int.ediv_nonneg (Int.mul_nonneg h.price.le h.size.le) (by decide)

/-- The notional of an order is its cost. -/
theorem Offered.mul_eq_ok (h : Offered o) {d : Decimal} :
    o.price.mul o.remainingSize = .ok d ↔
      InRange (o.price.value * o.remainingSize.value) ∧ d = ⟨costOf o, 8⟩ := by
  have hdiv : (o.price.value * o.remainingSize.value).tdiv (10 ^ 8) = costOf o :=
    Int.tdiv_eq_ediv_of_nonneg (Int.mul_nonneg h.price.le h.size.le)
  rw [Decimal.mul_eq_ok, h.scale.1, h.scale.2]
  unfold Decimal.sizeDecimals Decimal.priceDecimals
  rw [hdiv]
  constructor
  · rintro ⟨hrange, -, rfl⟩
    exact ⟨hrange, rfl⟩
  · rintro ⟨hrange, rfl⟩
    exact ⟨hrange, by decide, rfl⟩

/-- What the rest of a notional buys of an order. -/
theorem Offered.div_eq_ok (h : Offered o) (hleft : 0 ≤ left) {d : Decimal} :
    (⟨left, 8⟩ : Decimal).div o.price = .ok d ↔
      InRange (left * 10 ^ 8) ∧ d = ⟨left * 10 ^ 8 / o.price.value, 8⟩ := by
  have hscaled : 0 ≤ left * 10 ^ 8 := Int.mul_nonneg hleft (by decide)
  have hdiv : (left * 10 ^ 8).tdiv o.price.value = left * 10 ^ 8 / o.price.value :=
    Int.tdiv_eq_ediv_of_nonneg hscaled
  rw [Decimal.div_eq_ok, h.scale.1]
  unfold Decimal.priceDecimals
  dsimp only
  rw [hdiv]
  constructor
  · rintro ⟨-, -, hrange, -, rfl⟩
    exact ⟨hrange, rfl⟩
  · rintro ⟨hrange, rfl⟩
    refine ⟨h.price.ne', by decide, hrange, ?_, rfl⟩
    have hle := Int.ediv_le_self o.price.value hscaled
    have hnonneg := Int.ediv_nonneg hscaled h.price.le
    unfold InRange at hrange ⊢
    omega

/-- A notional pays for what it takes. -/
theorem totalCost_le : ∀ {os : List Order} (left : Int), (∀ o ∈ os, Offered o) → 0 ≤ left →
    0 ≤ totalCost (taken left os) ∧ totalCost (taken left os) ≤ left
  | [], _, _, hleft => ⟨Int.le_refl _, hleft⟩
  | o :: os, left, hos, hleft => by
    have hcost := (hos o (.head _)).cost_nonneg
    unfold taken
    split
    · have ih := totalCost_le (left - costOf o) (fun o' ho' => hos o' (.tail _ ho')) (by omega)
      rw [totalCost_cons]
      dsimp only
      omega
    · simp [totalCost, hleft]

theorem totalSize_nonneg : ∀ {os : List Order} (left : Int), (∀ o ∈ os, Offered o) →
    0 ≤ left → 0 ≤ totalSize (taken left os)
  | [], _, _, _ => Int.le_refl _
  | o :: os, left, hos, hleft => by
    have ho := hos o (.head _)
    unfold taken
    split
    · have ih := totalSize_nonneg (left - costOf o) (fun o' ho' => hos o' (.tail _ ho'))
        (by omega)
      have hsize := ho.size
      rw [totalSize_cons]
      dsimp only
      omega
    · have hpart := Int.ediv_nonneg (Int.mul_nonneg hleft (by decide : (0 : Int) ≤ 10 ^ 8))
        ho.price.le
      simpa [totalSize] using hpart

section Step

variable {size cost : Int} {r : Decimal × Decimal} (ho : Offered o) (h0 : 0 ≤ left)
  (hspent : InRange (cost + left))
include ho h0 hspent

/-- The step of the walk at an order that is taken whole. -/
theorem walk_whole (hc : 0 ≤ cost) (hwhole : costOf o ≤ left) :
    walk (o :: os) ⟨left, 8⟩ ⟨size, 8⟩ ⟨cost, 16⟩ = .ok r ↔
      InRange (o.price.value * o.remainingSize.value) ∧ InRange (size + o.remainingSize.value) ∧
        walk os ⟨left - costOf o, 8⟩ ⟨size + o.remainingSize.value, 8⟩ ⟨cost + costOf o, 16⟩ =
          .ok r := by
  have hcost := ho.cost_nonneg
  have hle : (⟨costOf o, 8⟩ : Decimal) ≤ ⟨left, 8⟩ ↔ costOf o ≤ left :=
    Decimal.le_iff_of_decimals rfl
  have hin : InRange (cost + costOf o) ∧ InRange (left - costOf o) := by
    unfold InRange at hspent ⊢
    omega
  rw [walk]
  simp only [bind_eq_ok, ho.mul_eq_ok]
  constructor
  · rintro ⟨_, ⟨hmul, rfl⟩, h⟩
    rw [if_pos (hle.mpr hwhole)] at h
    simp only [bind_eq_ok, Decimal.add_eq_ok, Decimal.sub_eq_ok] at h
    obtain ⟨_, ⟨hsize, rfl⟩, _, ⟨-, rfl⟩, _, ⟨-, rfl⟩, h⟩ := h
    exact ⟨hmul, hsize, h⟩
  · rintro ⟨hmul, hsize, h⟩
    refine ⟨_, ⟨hmul, rfl⟩, ?_⟩
    rw [if_pos (hle.mpr hwhole)]
    simp only [bind_eq_ok, Decimal.add_eq_ok, Decimal.sub_eq_ok]
    exact ⟨_, ⟨hsize, rfl⟩, _, ⟨hin.1, rfl⟩, _, ⟨hin.2, rfl⟩, h⟩

/-- The walk ends at an order that is taken in part. -/
theorem walk_part (hpart : ¬ costOf o ≤ left) :
    walk (o :: os) ⟨left, 8⟩ ⟨size, 8⟩ ⟨cost, 16⟩ = .ok r ↔
      InRange (o.price.value * o.remainingSize.value) ∧ InRange (left * 10 ^ 8) ∧
        InRange (size + left * 10 ^ 8 / o.price.value) ∧
        r = (⟨size + left * 10 ^ 8 / o.price.value, 8⟩, ⟨cost + left, 16⟩) := by
  have hle : (⟨costOf o, 8⟩ : Decimal) ≤ ⟨left, 8⟩ ↔ costOf o ≤ left :=
    Decimal.le_iff_of_decimals rfl
  rw [walk]
  simp only [bind_eq_ok, ho.mul_eq_ok]
  constructor
  · rintro ⟨_, ⟨hmul, rfl⟩, h⟩
    rw [if_neg (mt hle.mp hpart)] at h
    simp only [bind_eq_ok, Decimal.add_eq_ok, ho.div_eq_ok h0, pure_eq_ok] at h
    obtain ⟨_, ⟨hdiv, rfl⟩, _, ⟨hsize, rfl⟩, _, ⟨-, rfl⟩, rfl⟩ := h
    exact ⟨hmul, hdiv, hsize, rfl⟩
  · rintro ⟨hmul, hdiv, hsize, rfl⟩
    refine ⟨_, ⟨hmul, rfl⟩, ?_⟩
    rw [if_neg (mt hle.mp hpart)]
    simp only [bind_eq_ok, Decimal.add_eq_ok, ho.div_eq_ok h0, pure_eq_ok]
    exact ⟨_, ⟨hdiv, rfl⟩, _, ⟨hsize, rfl⟩, _, ⟨hspent, rfl⟩, rfl⟩

end Step

/-- **The walk.** It adds up what is taken, if its products and the size are in range. -/
theorem walk_eq_ok : ∀ {os : List Order} {left size cost : Int} {r : Decimal × Decimal},
    (∀ o ∈ os, Offered o) → 0 ≤ left → 0 ≤ size → 0 ≤ cost → InRange (cost + left) →
    InRange size →
      (walk os ⟨left, 8⟩ ⟨size, 8⟩ ⟨cost, 16⟩ = .ok r ↔
        Computes left os ∧ InRange (size + totalSize (taken left os)) ∧
          r = (⟨size + totalSize (taken left os), 8⟩, ⟨cost + totalCost (taken left os), 16⟩))
  | [], left, size, cost, r, _, _, _, _, _, hsize => by
    unfold walk taken Computes
    rw [pure_eq_ok]
    simp [totalSize, totalCost, hsize, eq_comm]
  | o :: os, left, size, cost, r, hos, hleft, h0, hc, hspent, hsize => by
    have ho := hos o (.head _)
    have hos' : ∀ o' ∈ os, Offered o' := fun o' ho' => hos o' (.tail _ ho')
    have hcost := ho.cost_nonneg
    have hosize := ho.size
    by_cases hwhole : costOf o ≤ left
    · rw [walk_whole ho hleft hspent hc hwhole]
      unfold taken Computes
      rw [if_pos hwhole, if_pos hwhole, totalSize_cons, totalCost_cons]
      dsimp only
      rw [← Int.add_assoc, ← Int.add_assoc]
      have hlater := totalSize_nonneg (left - costOf o) hos' (by omega)
      have hspent' : InRange (cost + costOf o + (left - costOf o)) := by
        unfold InRange at hspent ⊢
        omega
      constructor
      · rintro ⟨hmul, hsum, h⟩
        obtain ⟨hrest, htotal, rfl⟩ :=
          (walk_eq_ok hos' (by omega) (by omega) (by omega) hspent' hsum).mp h
        exact ⟨⟨hmul, hrest⟩, htotal, rfl⟩
      · rintro ⟨⟨hmul, hrest⟩, htotal, rfl⟩
        -- the size so far is in range because the whole size is
        have hsum : InRange (size + o.remainingSize.value) := by
          unfold InRange at htotal ⊢
          omega
        exact ⟨hmul, hsum, (walk_eq_ok hos' (by omega) (by omega) (by omega) hspent' hsum).mpr
          ⟨hrest, htotal, rfl⟩⟩
    · rw [walk_part ho hleft hspent hwhole]
      unfold taken Computes
      rw [if_neg hwhole, if_neg hwhole]
      simp [totalSize, totalCost, and_assoc]

end Offered

/-! ### Best and worst price -/

/-- The lowest price taken: the first of the asks, the last of the bids. -/
def lowest : OrderSide → List Taken → Int
  | .sell, ts => (ts.head?.map (·.price)).getD 0
  | .buy, ts => (ts.getLast?.map (·.price)).getD 0

/-- The highest price taken: the last of the asks, the first of the bids. -/
def highest : OrderSide → List Taken → Int
  | .sell, ts => (ts.getLast?.map (·.price)).getD 0
  | .buy, ts => (ts.head?.map (·.price)).getD 0

/-- The order of the raw prices along a side. -/
def Along : OrderSide → Int → Int → Prop
  | .sell, p, q => p ≤ q
  | .buy, p, q => q ≤ p

section Sorted

variable {b : OrderBook} {s : OrderSide} {ts : List Taken}

theorem along_sideList (hb : b.Keyed) :
    (sideList b s).Pairwise fun o o' => Along s o.price.value o'.price.value := by
  refine (pairwise_priceKey hb).imp_of_mem fun {o o'} ho ho' hle => ?_
  unfold Order.rawKey at hle
  rw [(mem_sideList hb ho).1, (mem_sideList hb ho').1] at hle
  cases s with
  | buy => exact Int.neg_le_neg_iff.mp hle
  | sell => exact hle

/-- What is taken comes in the order of the side. -/
theorem along_taken : ∀ {os : List Order} (left : Int),
    (os.Pairwise fun o o' => Along s o.price.value o'.price.value) →
      ((taken left os).Pairwise fun t t' => Along s t.price t'.price) ∧
        ∀ t ∈ taken left os, ∃ o ∈ os, t.price = o.price.value
  | [], _, _ => ⟨.nil, nofun⟩
  | o :: os, left, h => by
    obtain ⟨hfirst, h⟩ := List.pairwise_cons.mp h
    unfold taken
    split
    · obtain ⟨ih, hmem⟩ := along_taken (left - costOf o) h
      refine ⟨.cons (fun t ht => ?_) ih, fun t ht => ?_⟩
      · obtain ⟨o', ho', hprice⟩ := hmem t ht
        rw [hprice]
        exact hfirst o' ho'
      · rcases List.mem_cons.mp ht with rfl | ht
        · exact ⟨o, .head _, rfl⟩
        · obtain ⟨o', ho', hprice⟩ := hmem t ht
          exact ⟨o', .tail _ ho', hprice⟩
    · refine ⟨List.pairwise_singleton _ _, fun t ht => ?_⟩
      obtain rfl := List.mem_singleton.mp ht
      exact ⟨o, .head _, rfl⟩

theorem le_highest (h : ts.Pairwise fun t t' => Along s t.price t'.price) {t : Taken}
    (ht : t ∈ ts) : t.price ≤ highest s ts := by
  cases s with
  | buy =>
    cases ts with
    | nil => cases ht
    | cons t' ts =>
      rcases List.mem_cons.mp ht with rfl | ht
      · exact Int.le_refl _
      · exact (List.pairwise_cons.mp h).1 t ht
  | sell =>
    induction ts using List.reverseRecOn with
    | nil => cases ht
    | append_singleton ts t' _ =>
      have hlast : highest .sell (ts ++ [t']) = t'.price := by simp [highest]
      rw [hlast]
      rcases List.mem_append.mp ht with ht | ht
      · exact (List.pairwise_append.mp h).2.2 t ht t' (.head _)
      · rw [List.mem_singleton.mp ht]

end Sorted

/-- No price taken is above `top`, so the cost is at most that of one unit more at `top`. -/
theorem totalCost_mul_le {top : Int} (htop : 0 ≤ top) : ∀ {os : List Order} (left : Int),
    0 ≤ left → (∀ o ∈ os, Offered o) → (∀ t ∈ taken left os, t.price ≤ top) →
      totalCost (taken left os) * 10 ^ 8 ≤ top * (totalSize (taken left os) + 1)
  | [], _, _, _, _ => by simp [taken, totalCost, totalSize, htop]
  | o :: os, left, hleft, hos, hle => by
    have ho := hos o (.head _)
    unfold taken at hle ⊢
    split
    · rename_i hwhole
      rw [if_pos hwhole] at hle
      have ih := totalCost_mul_le htop (left - costOf o) (by omega)
        (fun o' ho' => hos o' (.tail _ ho')) fun t ht => hle t (.tail _ ht)
      have hprice : o.price.value ≤ top := hle _ (.head _)
      have hcost : costOf o * 10 ^ 8 ≤ o.price.value * o.remainingSize.value :=
        Int.ediv_mul_le _ (by decide)
      have hsize := Int.mul_le_mul_of_nonneg_right hprice ho.size.le
      rw [totalCost_cons, totalSize_cons]
      dsimp only
      rw [Int.add_mul, Int.add_assoc, Int.mul_add]
      omega
    · rename_i hpart
      rw [if_neg hpart] at hle
      have hprice : o.price.value ≤ top := hle _ (.head _)
      have hlt := Int.lt_ediv_add_one_mul_self (left * 10 ^ 8) ho.price
      have hquot : 0 ≤ left * 10 ^ 8 / o.price.value :=
        Int.ediv_nonneg (Int.mul_nonneg hleft (by decide)) ho.price.le
      have hnext : (left * 10 ^ 8 / o.price.value + 1) * o.price.value ≤
          top * (left * 10 ^ 8 / o.price.value + 1) := by
        rw [Int.mul_comm]
        exact Int.mul_le_mul_of_nonneg_right hprice (by omega)
      simp only [totalCost, totalSize, List.map_cons, List.map_nil, List.sum_cons, List.sum_nil,
        Int.add_zero]
      omega

/-! ### The average -/

/-- The volume-weighted average price, with a tolerance of a unit for each order taken, and
between the best and the worst price taken. -/
structure VolumeWeighted (s : OrderSide) (ts : List Taken) (price : Decimal) : Prop where
  average : |price.toRat - (totalCost ts : ℚ) / totalSize ts| ≤ (ts.length : ℚ) / 10 ^ 8
  lowest_le : (lowest s ts : ℚ) / 10 ^ 8 ≤ price.toRat
  le_highest : price.toRat ≤ (highest s ts : ℚ) / 10 ^ 8

/-- What makes up for a result that is a hundred millionth of the average: the average is
that much above the lowest price, and no more units high than orders are taken. -/
structure Spread (s : OrderSide) (notional : Int) (os : List Order) : Prop where
  computes : Computes notional os
  size_pos : 0 < totalSize (taken notional os)
  size : InRange (totalSize (taken notional os))
  cost : InRange (totalCost (taken notional os) * 10 ^ 8)
  high : lowest s (taken notional os) * totalSize (taken notional os) ≤
    totalCost (taken notional os)
  near : (totalCost (taken notional os) * 10 ^ 8 / totalSize (taken notional os) : ℚ) -
    (totalCost (taken notional os) * 10 ^ 8 / totalSize (taken notional os) : Int) / 10 ^ 8 ≤
      (taken notional os).length

section Average

variable {b : OrderBook} {s : OrderSide} {notional d : Decimal} {ts : List Taken}

theorem impactPrice_eq : b.impactPrice s = impactPriceOn (b.side s) := by
  cases s <;> rfl

/-- What the walk of a side returns. -/
theorem impactPrice_eq_some (hne : sideList b s ≠ []) (hos : ∀ o ∈ sideList b s, Offered o)
    (hscale : notional.decimals = Decimal.priceDecimals) (hpos : 0 < notional.value)
    (hin : InRange notional.value) :
    b.impactPrice s notional = .ok (some d) ↔
      Computes notional.value (sideList b s) ∧
      0 < totalSize (taken notional.value (sideList b s)) ∧
      InRange (totalSize (taken notional.value (sideList b s))) ∧
      InRange (totalCost (taken notional.value (sideList b s)) * 10 ^ 8) ∧
      d = ⟨totalCost (taken notional.value (sideList b s)) * 10 ^ 8 /
        totalSize (taken notional.value (sideList b s)), 16⟩ := by
  obtain ⟨left, k⟩ := notional
  obtain rfl : k = 8 := hscale
  dsimp only at hpos hin ⊢
  have hwalk := fun r => walk_eq_ok (r := r) hos hpos.le (Int.le_refl 0) (Int.le_refl 0)
    (by rwa [Int.zero_add]) (by decide)
  simp only [Int.zero_add] at hwalk
  have hcost := totalCost_le left hos hpos.le
  have hsize := totalSize_nonneg left hos hpos.le
  have hempty : ¬ ((b.side s).toList = [] ∨ (⟨left, 8⟩ : Decimal).isZero = true) := by
    rintro (h | h)
    · exact hne (by unfold sideList; rw [h]; rfl)
    · exact hpos.ne' (Decimal.isZero_iff.mp h)
  have hscaled : 0 ≤ totalCost (taken left (sideList b s)) * 10 ^ 8 :=
    Int.mul_nonneg hcost.1 (by decide)
  have hdiv : ∀ {n : Int}, (totalCost (taken left (sideList b s)) * 10 ^ 8).tdiv n =
      totalCost (taken left (sideList b s)) * 10 ^ 8 / n := Int.tdiv_eq_ediv_of_nonneg hscaled
  rw [impactPrice_eq, impactPriceOn, if_neg hempty]
  constructor
  · intro h
    obtain ⟨r, hr, h⟩ := bind_inv h
    obtain ⟨hcomputes, hrange, rfl⟩ := (hwalk r).mp hr
    dsimp only at h
    split at h
    · cases h
    · rename_i hzero
      rw [Decimal.isZero_iff] at hzero
      obtain ⟨p, hp, h⟩ := bind_inv h
      obtain rfl := Option.some.inj (pure_inv h)
      obtain ⟨-, -, hmul, -, rfl⟩ := Decimal.div_eq_ok.mp hp
      rw [hdiv]
      exact ⟨hcomputes, lt_of_le_of_ne hsize (Ne.symm hzero), hrange, hmul, rfl⟩
  · rintro ⟨hcomputes, hbought, hrange, hmul, rfl⟩
    refine bind_eq_ok.mpr ⟨_, (hwalk _).mpr ⟨hcomputes, hrange, rfl⟩, ?_⟩
    dsimp only
    rw [if_neg (mt Decimal.isZero_iff.mp hbought.ne')]
    have hle := Int.ediv_le_self (totalSize (taken left (sideList b s))) hscaled
    have hnonneg := Int.ediv_nonneg hscaled hsize
    have hten : InRange (10 ^ 8) := by decide
    refine bind_eq_ok.mpr ⟨_, Decimal.div_eq_ok.mpr ⟨hbought.ne', hten, hmul, ?_, rfl⟩, ?_⟩
    · dsimp only
      rw [hdiv]
      unfold InRange at hmul ⊢
      omega
    · rw [hdiv]
      rfl

/-- The quotient lies between the best and the worst price and next to the average if and
only if the average is far above the lowest price and there are as many orders. -/
theorem volumeWeighted_iff {left : Int} {os : List Order} (hleft : 0 ≤ left)
    (hos : ∀ o ∈ os, Offered o) (hts : ∀ t ∈ taken left os, t.price ≤ highest s (taken left os))
    (htop : 0 < highest s (taken left os)) (hbought : 0 < totalSize (taken left os)) :
    VolumeWeighted s (taken left os)
        ⟨totalCost (taken left os) * 10 ^ 8 / totalSize (taken left os), 16⟩ ↔
      lowest s (taken left os) * totalSize (taken left os) ≤ totalCost (taken left os) ∧
        (totalCost (taken left os) * 10 ^ 8 / totalSize (taken left os) : ℚ) -
          (totalCost (taken left os) * 10 ^ 8 / totalSize (taken left os) : Int) / 10 ^ 8 ≤
            (taken left os).length := by
  have hcost := (totalCost_le left hos hleft).1
  have hbound := totalCost_mul_le htop.le left hleft hos hts
  generalize taken left os = ts at hbound hcost hts htop hbought ⊢
  generalize hC : totalCost ts = C at hbound hcost ⊢
  generalize hS : totalSize ts = S at hbound hbought ⊢
  generalize hq : C * 10 ^ 8 / S = q
  have hvalue : (⟨q, 16⟩ : Decimal).toRat = (q : ℚ) / 10 ^ 16 := rfl
  have hSq : (0 : ℚ) < S := by exact_mod_cast hbought
  have hq0 : 0 ≤ q := by
    rw [← hq]
    exact Int.ediv_nonneg (Int.mul_nonneg hcost (by decide)) hbought.le
  -- the quotient is the average in units, rounded down
  have hfloor : (q : ℚ) ≤ C * 10 ^ 8 / S := by
    rw [le_div_iff₀ hSq]
    have hmul := Int.ediv_mul_le (C * 10 ^ 8) hbought.ne'
    rw [hq] at hmul
    exact_mod_cast hmul
  have hlow : (lowest s ts : ℚ) / 10 ^ 8 ≤ q / 10 ^ 16 ↔ lowest s ts * S ≤ C := by
    have hscale : (lowest s ts : ℚ) / 10 ^ 8 ≤ q / 10 ^ 16 ↔ lowest s ts * 10 ^ 8 ≤ q := by
      rw [div_le_div_iff₀ (by positivity) (by positivity)]
      constructor
      · intro h
        have h' : lowest s ts * 10 ^ 16 ≤ q * 10 ^ 8 := by exact_mod_cast h
        omega
      · intro h
        have h' : lowest s ts * 10 ^ 16 ≤ q * 10 ^ 8 := by omega
        exact_mod_cast h'
    rw [hscale, ← hq, Int.le_ediv_iff_mul_le hbought, Int.mul_right_comm]
    omega
  have hhigh : (q : ℚ) / 10 ^ 16 ≤ highest s ts / 10 ^ 8 := by
    -- the last unit that was not bought is no more than all that were
    have hunit := Int.mul_le_mul_of_nonneg_left hbought htop.le
    have hmul := Int.ediv_mul_le (C * 10 ^ 8) hbought.ne'
    rw [hq] at hmul
    have htwice : q * S ≤ 2 * highest s ts * S := by
      rw [Int.mul_add, Int.mul_one] at hbound
      rw [Int.mul_assoc]
      omega
    have hq2 : q ≤ 2 * highest s ts := Int.le_of_mul_le_mul_right htwice hbought
    rw [div_le_div_iff₀ (by positivity) (by positivity)]
    have h' : q * 10 ^ 8 ≤ highest s ts * 10 ^ 16 := by omega
    exact_mod_cast h'
  have hnear : |(q : ℚ) / 10 ^ 16 - (C : ℚ) / S| ≤ (ts.length : ℚ) / 10 ^ 8 ↔
      (C * 10 ^ 8 / S : ℚ) - q / 10 ^ 8 ≤ ts.length := by
    have hunits : (C : ℚ) * 10 ^ 8 / S = C / S * 10 ^ 8 := by ring
    have hq0' : (0 : ℚ) ≤ q := by exact_mod_cast hq0
    rw [hunits] at hfloor ⊢
    rw [abs_sub_comm, abs_of_nonneg (by linarith)]
    constructor
    · intro h
      linarith
    · intro h
      linarith
  constructor
  · rintro ⟨haverage, hlowest, -⟩
    rw [hvalue] at haverage hlowest
    rw [hC, hS] at haverage
    exact ⟨hlow.mp hlowest, hnear.mp haverage⟩
  · rintro ⟨hle, hunits⟩
    refine ⟨?_, hlow.mpr hle, hhigh⟩
    rw [hvalue, hC, hS]
    exact hnear.mpr hunits

theorem lowest_mem (hne : ts ≠ []) : ∃ t ∈ ts, t.price = lowest s ts := by
  cases s with
  | buy =>
    refine ⟨ts.getLast hne, List.getLast_mem hne, ?_⟩
    simp [lowest, List.getLast?_eq_some_getLast hne]
  | sell =>
    refine ⟨ts.head hne, List.head_mem hne, ?_⟩
    simp [lowest, List.head?_eq_some_head hne]

theorem price_pos {left : Int} {os : List Order} (hos : ∀ o ∈ os, Offered o)
    (hsorted : os.Pairwise fun o o' => Along s o.price.value o'.price.value) {t : Taken}
    (ht : t ∈ taken left os) : 0 < t.price := by
  obtain ⟨o, ho, hprice⟩ := (along_taken left hsorted).2 t ht
  rw [hprice]
  exact (hos o ho).price

/-- **The impact price.** On every side with positive prices and sizes and for every positive
notional, the impact price is the volume-weighted average of what the notional takes if and
only if that average is a hundred million times the lowest price taken, at most as many units
as orders are taken, and nothing on the way overflows. -/
theorem impact_price_iff (hb : b.Made) (hne : sideList b s ≠ [])
    (hos : ∀ o ∈ sideList b s, Offered o) (hscale : notional.decimals = Decimal.priceDecimals)
    (hpos : 0 < notional.value) (hin : InRange notional.value) :
    (∃ d, b.impactPrice s notional = .ok (some d) ∧
      VolumeWeighted s (taken notional.value (sideList b s)) d) ↔
        Spread s notional.value (sideList b s) := by
  have hsorted := along_sideList (s := s) hb.keyed
  have hle := fun t ht => le_highest (t := t) (along_taken notional.value hsorted).1 ht
  have htop : 0 < totalSize (taken notional.value (sideList b s)) →
      0 < highest s (taken notional.value (sideList b s)) := by
    intro hbought
    have htaken : taken notional.value (sideList b s) ≠ [] := by
      intro hnil
      rw [hnil] at hbought
      exact absurd hbought (by decide)
    obtain ⟨t, ht, -⟩ := lowest_mem (s := s) htaken
    exact (price_pos hos hsorted ht).trans_le (hle t ht)
  constructor
  · rintro ⟨d, hd, hweighted⟩
    obtain ⟨hcomputes, hbought, hsize, hcost, rfl⟩ :=
      (impactPrice_eq_some hne hos hscale hpos hin).mp hd
    obtain ⟨hhigh, hnear⟩ :=
      (volumeWeighted_iff hpos.le hos hle (htop hbought) hbought).mp hweighted
    exact ⟨hcomputes, hbought, hsize, hcost, hhigh, hnear⟩
  · intro h
    exact ⟨_, (impactPrice_eq_some hne hos hscale hpos hin).mpr
        ⟨h.computes, h.size_pos, h.size, h.cost, rfl⟩,
      (volumeWeighted_iff hpos.le hos hle (htop h.size_pos) h.size_pos).mpr ⟨h.high, h.near⟩⟩

end Average

/-- One ask for 1 at 65000. -/
def soleAsk : Exec OrderBook := bookOf [askAt 1 ⟨6500000000000, 8⟩ 100000000]

/-- What 65000 buys of the one ask does not come out as its price. -/
theorem impact_price_soleAsk : ∃ b, soleAsk = .ok b ∧
    ¬ ∃ d, b.impactPrice .sell ⟨6500000000000, 8⟩ = .ok (some d) ∧
      VolumeWeighted .sell (taken 6500000000000 (sideList b .sell)) d := by
  obtain ⟨b, hb, ht⟩ := exists_of_test (x := soleAsk)
    (p := fun b => sideList b .sell = [orderOf 1 1 .sell .gtc 100000000]) (by decide +kernel)
  have hlist := of_decide_eq_true ht
  refine ⟨b, hb, fun h => ?_⟩
  have hspread := (impact_price_iff (.of_foldlM (fun _ _ _ => trivial) hb) (by rw [hlist]; simp)
    (by
      rw [hlist]
      intro o ho
      obtain rfl := List.mem_singleton.mp ho
      exact ⟨by decide, by decide, by decide⟩) rfl (by decide) (by decide)).mp h
  have hhigh := hspread.high
  rw [hlist] at hhigh
  exact absurd hhigh (by decide)

/-- One ask for 1 at 65000, and 65000 buys it at 0.00065. -/
theorem impact_price_too_low : ∃ b, soleAsk = .ok b ∧
    b.impactPriceBuy ⟨6500000000000, 8⟩ = .ok (some ⟨6500000000000, 16⟩) ∧
    ¬ VolumeWeighted .sell (taken 6500000000000 (sideList b .sell)) ⟨6500000000000, 16⟩ := by
  obtain ⟨b, hb, ht⟩ := exists_of_test (x := soleAsk)
    (p := fun b => b.impactPriceBuy ⟨6500000000000, 8⟩ = .ok (some ⟨6500000000000, 16⟩) ∧
      lowest .sell (taken 6500000000000 (sideList b .sell)) = 6500000000000) (by decide +kernel)
  obtain ⟨hprice, hlowest⟩ := of_decide_eq_true ht
  refine ⟨b, hb, hprice, fun h => ?_⟩
  have hle := h.lowest_le
  rw [hlowest] at hle
  norm_num [Decimal.toRat] at hle

end OrderBook

end Hypercore
