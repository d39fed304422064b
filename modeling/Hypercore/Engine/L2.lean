import Hypercore.Engine.BookRun
import Hypercore.Engine.PriceTime
import Hypercore.Lib.Grouped
import Hypercore.Primitives.DecimalText
/-!
# Hypercore.Engine.L2

The aggregated view of an order book.

The loop walks the orders of a side in key order and starts a level at each new price. In
key order the orders of one price stand together, so its levels are the groups of
`Grouping`: the first prices, each with all its orders (`aggregateFrom_grouped`).
-/

namespace Hypercore

open Exec Int128 Grouping MatchingEngine

/-- The result of a `u32` addition whose exact value is `n`. -/
def u32 (n : Nat) : Exec Nat := if n < 2 ^ 32 then .ok n else .error .panic

/-- Level in the order book (aggregated view). -/
structure PriceLevel where
  price : Decimal
  size : Decimal
  orderCount : Nat
  deriving DecidableEq, Repr

namespace OrderBook

/-- Add an order to the last level. -/
def addToLast (levels : List PriceLevel) (order : Order) : Exec (List PriceLevel) :=
  match levels.getLast? with
  | none => return levels
  | some level => do
    let size ← level.size.add order.remainingSize
    let orderCount ← u32 (level.orderCount + 1)
    return levels.dropLast ++ [{ level with size, orderCount }]

/-- The loop of `aggregate_levels`, with the levels so far and the price of the last. -/
def aggregateFrom (depth : Nat) : List Order → List PriceLevel → Option Decimal →
    Exec (List PriceLevel)
  | [], levels, _ => return levels
  | order :: rest, levels, currentPrice =>
    if depth ≤ levels.length ∧ currentPrice ≠ some order.price then return levels
    else if currentPrice = some order.price then do
      let levels ← addToLast levels order
      aggregateFrom depth rest levels currentPrice
    else if levels.length < depth then
      aggregateFrom depth rest (levels ++ [⟨order.price, order.remainingSize, 1⟩])
        (some order.price)
    else aggregateFrom depth rest levels currentPrice

/-- Aggregate the orders of a side by price. -/
def aggregateLevels (orders : FinMap OrderKey Order) (depth : Nat) : Exec (List PriceLevel) :=
  aggregateFrom depth (orders.toList.map (·.2)) [] none

/-- Get the L2 book: bids and asks. -/
def getL2 (b : OrderBook) (depth : Nat) : Exec (List PriceLevel × List PriceLevel) := do
  let bids ← aggregateLevels b.bids depth
  let asks ← aggregateLevels b.asks depth
  return (bids, asks)

/-! ### Keys and prices -/

/-- Every order stands on its own side under its own key. -/
def Keyed (b : OrderBook) : Prop :=
  ∀ (s : OrderSide) (k : OrderKey) (o : Order), (b.side s)[k]? = some o →
    o.side = s ∧ k = o.rawKey

/-- Some sequence of operations on an empty book ends in `b`. -/
def Made (b : OrderBook) : Prop :=
  Run.Reaches (fun (op : BookOp) b => op.run b) (fun _ _ => True) new b

section Keyed

variable {b b' : OrderBook}

theorem Keyed.insert (hb : b.Keyed) {o : Order} (h : b.insert o = .ok b') : b'.Keyed := by
  intro s k o' ho'
  rw [insert_side h] at ho'
  split at ho'
  · rename_i hs
    rw [FinMap.get_insert] at ho'
    split at ho'
    · rename_i hk
      obtain rfl := Option.some.inj ho'
      exact ⟨hs, hk.symm⟩
    · exact hb s k o' ho'
  · exact hb s k o' ho'

theorem Keyed.remove (hb : b.Keyed) (id : OrderId) : (b.remove id).2.Keyed := by
  intro s k o ho
  cases hk : b.orderIndex[id]? with
  | none =>
    rw [remove_none hk] at ho
    exact hb s k o ho
  | some k' =>
    rw [remove_side hk] at ho
    split at ho
    · rw [FinMap.get_erase] at ho
      split at ho
      · cases ho
      · exact hb s k o ho
    · exact hb s k o ho

/-- A write that leaves an order in its place keeps the keys. -/
theorem Keyed.modify (hb : b.Keyed) {id : OrderId} (write : Order.Write)
    (h : b.modify id write.run = .ok b') : b'.Keyed := by
  rcases modify_cases h with rfl | ⟨k, o, o', -, ho, hwrite, rfl⟩
  · exact hb
  · intro s k' o₁ ho₁
    rw [side_setSide] at ho₁
    split at ho₁
    · rename_i hs
      rw [FinMap.get_insert] at ho₁
      split at ho₁
      · rename_i hk
        obtain rfl := Option.some.inj ho₁
        obtain ⟨hside, hkey⟩ := hb _ _ _ ho
        have hplace := write.samePlace hwrite
        rw [← hk, hkey, hplace.rawKey]
        exact ⟨hplace.2.1.trans (hside.trans hs), rfl⟩
      · rw [hs] at ho₁
        exact hb s k' o₁ ho₁
    · exact hb s k' o₁ ho₁

theorem Made.keyed (h : b.Made) : b.Keyed := by
  refine Run.Reaches.invariant h ?_ fun b op b' hb _ hrun => ?_
  · intro s k o ho
    cases s <;> simp [new, side] at ho
  · cases op with
    | insert order => exact hb.insert hrun
    | remove orderId =>
      obtain rfl := pure_inv hrun
      exact hb.remove orderId
    | getMut orderId write => exact hb.modify write hrun
    | updateSize orderId newRemaining =>
      obtain ⟨⟨x, b₁⟩, hup, hrun⟩ := bind_inv hrun
      obtain rfl := pure_inv hrun
      exact hb.modify _ (updateSize_modify hup)
    | removeIfFilled orderId =>
      obtain rfl := pure_inv hrun
      unfold removeIfFilled
      split
      · split
        · exact hb.remove orderId
        · exact hb
      · exact hb

end Keyed

/-- The price and the remaining size of an order are on the given scales. -/
def OnScale (priceScale sizeScale : Nat) (o : Order) : Prop :=
  o.price.decimals = priceScale ∧ o.remainingSize.decimals = sizeScale

instance (m n : Nat) : DecidablePred (OnScale m n) := fun _ => instDecidableAnd

section Sorted

variable {b : OrderBook} {s : OrderSide} {o o' : Order} {m n : Nat}

theorem mem_sideList (hb : b.Keyed) (ho : o ∈ sideList b s) :
    o.side = s ∧ (b.side s)[o.rawKey]? = some o := by
  obtain ⟨⟨k, o'⟩, hmem, rfl⟩ := List.mem_map.mp ho
  have hget := FinMap.mem_toList.mp hmem
  obtain ⟨hs, hk⟩ := hb s k o' hget
  exact ⟨hs, hk ▸ hget⟩

/-- The orders of a side come in the order of their price keys. -/
theorem pairwise_priceKey (hb : b.Keyed) :
    (sideList b s).Pairwise fun o o' => o.rawKey.priceKey ≤ o'.rawKey.priceKey := by
  unfold sideList
  rw [List.pairwise_map]
  refine (FinMap.pairwise_toList (b.side s)).imp_of_mem fun {p q} hp hq hlt => ?_
  obtain ⟨-, hkp⟩ := hb s p.1 p.2 (FinMap.mem_toList.mp hp)
  obtain ⟨-, hkq⟩ := hb s q.1 q.2 (FinMap.mem_toList.mp hq)
  rw [← hkp, ← hkq]
  unfold FinMap.KeyLt at hlt
  rw [OrderKey.compare_def, Ordering.then_eq_lt] at hlt
  rcases hlt with hlt | ⟨heq, -⟩
  · exact (Std.compare_eq_lt.mp hlt).le
  · exact (Std.compare_eq_iff_eq.mp heq).le

/-- On one scale and one side, a price key stands for a price. -/
theorem price_eq_iff (hs : o.side = s) (hs' : o'.side = s) (ho : OnScale m n o)
    (ho' : OnScale m n o') :
    o.price = o'.price ↔ o.rawKey.priceKey = o'.rawKey.priceKey := by
  have hvalue : o.price = o'.price ↔ o.price.value = o'.price.value := by
    constructor
    · exact congrArg Decimal.value
    · intro h
      cases hp : o.price
      cases hp' : o'.price
      simp only [Decimal.mk.injEq]
      have h1 := ho.1
      have h2 := ho'.1
      rw [hp, hp'] at h
      rw [hp] at h1
      rw [hp'] at h2
      exact ⟨h, h1.trans h2.symm⟩
  rw [hvalue]
  unfold Order.rawKey
  rw [hs, hs']
  cases s with
  | buy => simp
  | sell => simp

/-- On one scale and one side, a smaller price key is a better price. -/
theorem better_of_priceKey (hs : o.side = s) (hs' : o'.side = s) (ho : OnScale m n o)
    (ho' : OnScale m n o') (h : o.rawKey.priceKey < o'.rawKey.priceKey) :
    better s o.price o'.price := by
  unfold Order.rawKey at h
  rw [hs, hs'] at h
  cases s with
  | buy => exact (Decimal.lt_iff_of_decimals (ho'.1.trans ho.1.symm)).mpr (by simpa using h)
  | sell => exact (Decimal.lt_iff_of_decimals (ho.1.trans ho'.1.symm)).mpr h

variable (hb : b.Keyed) (hscale : ∀ o ∈ sideList b s, OnScale m n o)
include hb hscale

/-- The orders of one price stand together. -/
theorem grouped_sideList : Grouped (·.price) (sideList b s) :=
  .of_sorted (fun o : Order => o.rawKey.priceKey) (pairwise_priceKey hb) fun o ho o' ho' =>
    price_eq_iff (mem_sideList hb ho).1 (mem_sideList hb ho').1 (hscale o ho) (hscale o' ho')

/-- Their prices come best first. -/
theorem pairwise_prices : (keys (·.price) (sideList b s)).Pairwise (better s) := by
  refine (grouped_sideList hb hscale).pairwise_keys
    ((pairwise_priceKey hb).imp_of_mem fun {o o'} ho ho' hle hne => ?_)
  have hs := (mem_sideList hb ho).1
  have hs' := (mem_sideList hb ho').1
  refine better_of_priceKey hs hs' (hscale o ho) (hscale o' ho') (lt_of_le_of_ne hle fun heq => ?_)
  exact hne ((price_eq_iff hs hs' (hscale o ho) (hscale o' ho')).mpr heq)

end Sorted

/-! ### The loop -/

/-- The raw sizes of orders, added up. -/
def rawSize (os : List Order) : Int := (os.map (·.remainingSize.value)).sum

/-- The level that the orders of a price make. -/
def levelOf (sizeScale : Nat) (price : Decimal) (os : List Order) : PriceLevel :=
  ⟨price, ⟨rawSize os, sizeScale⟩, os.length⟩

/-- The sizes add up within `i128` one after the other, and the orders can be counted. -/
structure LevelFits (os : List Order) : Prop where
  size : ∀ n, 0 < n → InRange (rawSize (os.take n))
  count : os.length < 2 ^ 32

/-- Only the sums on the way count. -/
theorem levelFits_iff {os : List Order} :
    (∀ n ∈ List.range os.length, InRange (rawSize (os.take (n + 1)))) ∧ os.length < 2 ^ 32 ↔
      LevelFits os := by
  constructor
  · rintro ⟨hsums, hcount⟩
    refine ⟨fun n hn => ?_, hcount⟩
    by_cases hlast : n ≤ os.length
    · have hsum := hsums (n - 1) (List.mem_range.mpr (by omega))
      rwa [Nat.sub_add_cancel hn] at hsum
    · rw [List.take_of_length_le (by omega)]
      cases os with
      | nil => decide
      | cons o os =>
        have hsum := hsums os.length (List.mem_range.mpr (Nat.lt_succ_self _))
        rwa [List.take_of_length_le (by simp)] at hsum
  · exact fun h => ⟨fun n _ => h.size (n + 1) (Nat.succ_pos n), h.count⟩

instance (os : List Order) : Decidable (LevelFits os) := decidable_of_iff _ levelFits_iff

theorem rawSize_cons (o : Order) (os : List Order) :
    rawSize (o :: os) = o.remainingSize.value + rawSize os := List.sum_cons

/-- Orders at the price of the last level are added to it. -/
theorem aggregateFrom_same (depth : Nat) {p : Decimal} (rest : List Order) :
    ∀ {same : List Order} (levels : List PriceLevel) (level : PriceLevel),
      (∀ o ∈ same, o.price = p) →
      (∀ n, 0 < n → InRange (level.size.value + rawSize (same.take n))) →
      level.orderCount + same.length < 2 ^ 32 →
      aggregateFrom depth (same ++ rest) (levels ++ [level]) (some p) =
        aggregateFrom depth rest (levels ++ [⟨level.price,
          ⟨level.size.value + rawSize same, level.size.decimals⟩,
          level.orderCount + same.length⟩]) (some p)
  | [], levels, level, _, _, _ => by
    have hsize : level.size.value + rawSize [] = level.size.value := Int.add_zero _
    rw [List.nil_append, hsize, List.length_nil, Nat.add_zero]
  | o :: same, levels, level, hsame, hrange, hcount => by
    have hp := hsame o (.head _)
    rw [List.length_cons] at hcount
    -- the order goes into the last level
    have hadd : addToLast (levels ++ [level]) o = .ok (levels ++ [⟨level.price,
        ⟨level.size.value + o.remainingSize.value, level.size.decimals⟩,
        level.orderCount + 1⟩]) := by
      have hfirst := hrange 1 Nat.one_pos
      rw [List.take_succ_cons, List.take_zero, rawSize_cons] at hfirst
      have hin : InRange (level.size.value + o.remainingSize.value) := by
        simpa [rawSize] using hfirst
      unfold addToLast u32
      rw [List.getLast?_concat, List.dropLast_concat]
      dsimp only
      rw [Decimal.add_eq_ok.mpr ⟨hin, rfl⟩, if_pos (by omega)]
      rfl
    have hrec := aggregateFrom_same depth rest levels
      ⟨level.price, ⟨level.size.value + o.remainingSize.value, level.size.decimals⟩,
        level.orderCount + 1⟩ (fun o' ho' => hsame o' (.tail _ ho'))
      (fun n _ => by
        have hnext := hrange (n + 1) (Nat.succ_pos n)
        rw [List.take_succ_cons, rawSize_cons, ← Int.add_assoc] at hnext
        exact hnext)
      (by dsimp only; omega)
    rw [List.cons_append, aggregateFrom, if_neg (by rw [hp]; simp), if_pos (by rw [hp]), hadd]
    refine hrec.trans ?_
    rw [rawSize_cons, List.length_cons]
    dsimp only
    rw [Int.add_assoc, Nat.add_right_comm, Nat.add_assoc]

/-- **The loop.** On a side whose prices stand together, the loop appends the levels of the
first prices, up to the depth. -/
theorem aggregateFrom_grouped (depth : Nat) {m n : Nat} {os : List Order}
    (h : Grouped (·.price) os) :
    ∀ (levels : List PriceLevel) (current : Option Decimal),
      (∀ o ∈ os, current ≠ some o.price) → (∀ o ∈ os, OnScale m n o) → levels.length ≤ depth →
      (∀ p ∈ (keys (·.price) os).take (depth - levels.length),
        LevelFits (group (·.price) os p)) →
      aggregateFrom depth os levels current =
        .ok (levels ++ ((keys (·.price) os).take (depth - levels.length)).map
          fun p => levelOf n p (group (·.price) os p)) := by
  induction h with
  | nil =>
    intro levels current _ _ _ _
    rw [keys_nil, List.take_nil, List.map_nil, List.append_nil]
    rfl
  | cons o same rest hsame hrest tail ih =>
    intro levels current hcurrent hscale hdepth hfits
    have hne := hcurrent o (.head _)
    by_cases hfull : depth ≤ levels.length
    · rw [aggregateFrom, if_pos ⟨hfull, hne⟩, Nat.sub_eq_zero_of_le hfull, List.take_zero,
        List.map_nil, List.append_nil]
      rfl
    · have hroom : depth - levels.length = (depth - (levels.length + 1)) + 1 := by omega
      have hkeys := keys_cons hsame hrest
      have hgroup := group_cons_self hsame hrest
      rw [hroom, hkeys, List.take_succ_cons] at hfits
      have hlevel := hfits o.price (.head _)
      rw [hgroup] at hlevel
      -- the first order of the price opens a level, the others join it
      have hsize := fun k (_ : 0 < k) => hlevel.size (k + 1) (Nat.succ_pos k)
      have hjoin := aggregateFrom_same depth rest levels ⟨o.price, o.remainingSize, 1⟩ hsame
        (fun k hk => by
          have hnext := hsize k hk
          rw [List.take_succ_cons, rawSize_cons] at hnext
          exact hnext)
        (by
          have hcount := hlevel.count
          rw [List.length_cons] at hcount
          dsimp only
          omega)
      have hopened : (⟨o.price, ⟨o.remainingSize.value + rawSize same, o.remainingSize.decimals⟩,
          1 + same.length⟩ : PriceLevel) = levelOf n o.price (o :: same) := by
        unfold levelOf
        rw [rawSize_cons, (hscale o (.head _)).2, List.length_cons, Nat.add_comm]
      rw [aggregateFrom, if_neg fun hbreak => hfull hbreak.1, if_neg hne,
        if_pos (Nat.lt_of_not_le hfull), hjoin]
      dsimp only
      rw [hopened]
      have hlength : (levels ++ [levelOf n o.price (o :: same)]).length = levels.length + 1 := by
        rw [List.length_append, List.length_singleton]
      have hmem : ∀ o' ∈ rest, o' ∈ o :: (same ++ rest) := fun o' ho' =>
        .tail _ (List.mem_append_right _ ho')
      rw [ih _ _ (fun o' ho' heq => hrest o' ho' (Option.some.inj heq).symm)
        (fun o' ho' => hscale o' (hmem o' ho')) (by omega) ?_]
      · rw [hlength, hroom, List.append_assoc, List.singleton_append]
        have hmap := congrArg (List.take (depth - (levels.length + 1) + 1))
          (tail.map_keys_cons hsame hrest (levelOf n))
        rw [← List.map_take, List.take_succ_cons, ← List.map_take] at hmap
        exact congrArg (fun later => Except.ok (levels ++ later)) hmap.symm
      · intro p hp
        rw [hlength] at hp
        obtain ⟨o', ho', rfl⟩ := tail.mem_keys.mp (List.mem_of_mem_take hp)
        have hlater := hfits o'.price (.tail _ hp)
        rwa [group_cons_ne hsame (hrest o' ho')] at hlater

/-! ### The aggregated book -/

/-- The size of a level is what its orders have left to fill. -/
theorem levelOf_toRat {m n : Nat} (p : Decimal) : ∀ {os : List Order},
    (∀ o ∈ os, OnScale m n o) →
      (levelOf n p os).size.toRat = (os.map (·.remainingSize.toRat)).sum
  | [], _ => by simp [levelOf, rawSize, Decimal.toRat]
  | o :: os, hscale => by
    have ih := levelOf_toRat p fun o' ho' => hscale o' (.tail _ ho')
    rw [List.map_cons, List.sum_cons, ← ih]
    unfold levelOf Decimal.toRat
    rw [(hscale o (.head _)).2, rawSize_cons, Int.cast_add, add_div]

/-- The levels of a side: the first prices, best first, each with all that rests at it. -/
structure L2Of (s : OrderSide) (sizeScale : Nat) (os : List Order) (depth : Nat)
    (levels : List PriceLevel) : Prop where
  levels_eq : levels = ((keys (·.price) os).take depth).map
    fun p => levelOf sizeScale p (group (·.price) os p)
  bestFirst : (keys (·.price) os).Pairwise (better s)
  /-- With room for every price the sizes add up to all that rests. -/
  total : (keys (·.price) os).length ≤ depth →
    (levels.map (·.size.toRat)).sum = (os.map (·.remainingSize.toRat)).sum

/-- One side of the aggregated book. -/
theorem aggregateLevels_side {b : OrderBook} {s : OrderSide} {m n depth : Nat} (hb : b.Keyed)
    (hscale : ∀ o ∈ sideList b s, OnScale m n o)
    (hfits : ∀ p ∈ (keys (·.price) (sideList b s)).take depth,
      LevelFits (group (·.price) (sideList b s) p)) :
    ∃ levels, aggregateLevels (b.side s) depth = .ok levels ∧
      L2Of s n (sideList b s) depth levels := by
  have hgrouped := grouped_sideList hb hscale
  have hloop := aggregateFrom_grouped depth hgrouped [] none (by simp) hscale (Nat.zero_le _) hfits
  refine ⟨_, hloop, rfl, pairwise_prices hb hscale, fun hroom => ?_⟩
  rw [List.length_nil, Nat.sub_zero, List.take_of_length_le hroom, List.nil_append, List.map_map]
  refine Eq.trans ?_ (hgrouped.sum_keys fun o => o.remainingSize.toRat)
  exact congrArg List.sum (List.map_congr_left fun p _ =>
    levelOf_toRat p fun o ho => hscale o (List.mem_of_mem_filter ho))

/-- **The aggregated book.** On every book whose sides have each one scale of prices and one
of sizes, `get_l2` returns the first prices of each side, best first, with the sum of the
remaining sizes and the number of the orders at each, as long as these fit. -/
theorem l2_aggregates {b : OrderBook} (depth : Nat) {m n : OrderSide → Nat}
    (hb : b.Made) (hscale : ∀ s, ∀ o ∈ sideList b s, OnScale (m s) (n s) o)
    (hfits : ∀ s, ∀ p ∈ (keys (·.price) (sideList b s)).take depth,
      LevelFits (group (·.price) (sideList b s) p)) :
    ∃ bids asks, b.getL2 depth = .ok (bids, asks) ∧
      L2Of .buy (n .buy) (sideList b .buy) depth bids ∧
      L2Of .sell (n .sell) (sideList b .sell) depth asks := by
  obtain ⟨bids, hbids, hbuy⟩ := aggregateLevels_side hb.keyed (hscale .buy) (hfits .buy)
  obtain ⟨asks, hasks, hsell⟩ := aggregateLevels_side hb.keyed (hscale .sell) (hfits .sell)
  refine ⟨bids, asks, ?_, hbuy, hsell⟩
  exact bind_eq_ok.mpr ⟨bids, hbids, bind_eq_ok.mpr ⟨asks, hasks, rfl⟩⟩

/-- An ask at a price. -/
def askAt (id : OrderId) (price : Decimal) (size : Int) : BookOp :=
  .insert { orderOf id 1 .sell .gtc size with price := price }

/-- The book of the given asks. -/
def bookOf (asks : List BookOp) : Exec OrderBook := asks.foldlM (fun b op => op.run b) new

/-- Of two asks at one price and one behind them, a depth of one shows the two. -/
theorem l2_aggregates_asks : ∃ b bids asks, b.getL2 1 = .ok (bids, asks) ∧
    asks = [⟨⟨6500000000000, 8⟩, ⟨150, 8⟩, 2⟩] ∧
    L2Of .buy 8 (sideList b .buy) 1 bids ∧ L2Of .sell 8 (sideList b .sell) 1 asks := by
  obtain ⟨b, hb, ht⟩ := exists_of_test
    (x := bookOf [askAt 1 ⟨6500000000000, 8⟩ 100, askAt 2 ⟨6600000000000, 8⟩ 7,
      askAt 3 ⟨6500000000000, 8⟩ 50])
    (p := fun b => sideList b .buy = [] ∧ (∀ o ∈ sideList b .sell, OnScale 8 8 o) ∧
      (∀ p ∈ (keys Order.price (sideList b .sell)).take 1,
        LevelFits (group Order.price (sideList b .sell) p)) ∧
      b.getL2 1 = .ok ([], [⟨⟨6500000000000, 8⟩, ⟨150, 8⟩, 2⟩])) (by decide +kernel)
  obtain ⟨hnone, hscale, hfits, hshown⟩ := of_decide_eq_true ht
  obtain ⟨bids, asks, hl2, hbids, hasks⟩ := l2_aggregates 1 (m := fun _ => 8)
    (n := fun _ => 8) (.of_foldlM (fun _ _ _ => trivial) hb)
    (fun s => by cases s with
      | buy => rw [hnone]; simp
      | sell => exact hscale)
    (fun s => by cases s with
      | buy => rw [hnone]; simp
      | sell => exact hfits)
  obtain ⟨-, rfl⟩ := Prod.mk.inj (ok_unique hshown hl2)
  exact ⟨b, bids, _, hl2, rfl, hbids, hasks⟩

/-- Two asks at one price whose sizes do not fit together halt, and asks at one key with
prices on different scales split a price in two. -/
theorem l2_overflows_and_splits :
    (∃ b : OrderBook, b.Made ∧ b.getL2 1 = .error .panic) ∧
    ∃ (b : OrderBook) (asks : List PriceLevel), b.Made ∧ b.getL2 3 = .ok ([], asks) ∧
      asks.map (·.price) = [⟨6500000000000, 8⟩, ⟨6500000000000, 6⟩, ⟨6500000000000, 8⟩] := by
  constructor
  · obtain ⟨b, hb, ht⟩ := exists_of_test
      (x := bookOf [askAt 1 ⟨6500000000000, 8⟩ (2 ^ 126), askAt 2 ⟨6500000000000, 8⟩ (2 ^ 126)])
      (p := fun b => b.getL2 1 = .error .panic) (by decide +kernel)
    exact ⟨b, .of_foldlM (fun _ _ _ => trivial) hb, of_decide_eq_true ht⟩
  · obtain ⟨b, hb, ht⟩ := exists_of_test
      (x := bookOf [askAt 1 ⟨6500000000000, 8⟩ 100, askAt 2 ⟨6500000000000, 6⟩ 100,
        askAt 3 ⟨6500000000000, 8⟩ 100])
      (p := fun b => b.getL2 3 = .ok ([], [⟨⟨6500000000000, 8⟩, ⟨100, 8⟩, 1⟩,
        ⟨⟨6500000000000, 6⟩, ⟨100, 8⟩, 1⟩, ⟨⟨6500000000000, 8⟩, ⟨100, 8⟩, 1⟩])) (by decide +kernel)
    exact ⟨b, _, .of_foldlM (fun _ _ _ => trivial) hb, of_decide_eq_true ht, rfl⟩

end OrderBook

end Hypercore
