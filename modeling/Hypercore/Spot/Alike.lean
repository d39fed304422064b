import Hypercore.Lib.Sim
import Hypercore.Spot.TimeInForce
/-!
# Hypercore.Spot.Alike

Spot engine states that no operation can tell apart.

Two states are alike when they differ in the statuses of orders in books at most: an
operation reads the status of an order in the orders map, never in a book. Every function of
the spot engine takes alike states to alike states and returns the same result
(`Alike.answer`), one function after the other in the order of the model.
-/

namespace Hypercore

open Exec Int128

/-! ### Books -/

namespace OrderBook

variable {b b' : OrderBook} {o o' : Order} {t : OrderSide} {id : OrderId}

theorem best_unstated (b : OrderBook) (t : OrderSide) :
    b.unstated.best t = (b.best t).map Order.unstated := by
  unfold best
  rw [side_unstated, Std.ExtTreeMap.toList_map, List.head?_map, Option.map_map, Option.map_map]
  rfl

theorem unstated_setSide (b : OrderBook) (t : OrderSide) (m : FinMap OrderKey Order) :
    (b.setSide t m).unstated = b.unstated.setSide t (m.map fun _ o => o.unstated) := by
  cases t <;> rfl

theorem unstated_updateBest (b : OrderBook) (t : OrderSide) :
    (b.updateBest t).unstated = b.unstated.updateBest t := by
  have hprice : (b.unstated.best t).map (·.price) = (b.best t).map (·.price) := by
    rw [best_unstated, Option.map_map]
    rfl
  cases t <;> unfold updateBest <;> dsimp only <;> rw [hprice] <;> rfl

theorem length_side_unstated (b : OrderBook) (t : OrderSide) :
    (b.unstated.side t).toList.length = (b.side t).toList.length := by
  rw [side_unstated, Std.ExtTreeMap.toList_map, List.length_map]

theorem get_unstated (b : OrderBook) (id : OrderId) :
    b.unstated.get id = (b.get id).map Order.unstated := by
  unfold get
  have hindex : b.unstated.orderIndex = b.orderIndex := rfl
  rw [hindex]
  cases b.orderIndex[id]? with
  | none => rfl
  | some k => exact get_side_unstated b k.side k

theorem WF.unstated (hb : b.WF) : b.unstated.WF := by
  refine ⟨fun t k o ho => ?_, fun id k hk => ?_⟩
  · rw [get_side_unstated] at ho
    obtain ⟨o', ho', rfl⟩ := Option.map_eq_some_iff.mp ho
    exact hb.side_spec t k o' ho'
  · obtain ⟨hid, o, ho⟩ := hb.index_spec id k hk
    refine ⟨hid, o.unstated, ?_⟩
    rw [get_side_unstated, ho]
    rfl

/-- Removing commutes with erasing statuses. -/
theorem unstated_remove (b : OrderBook) (id : OrderId) :
    (b.remove id).2.unstated = (b.unstated.remove id).2 := by
  unfold remove
  have hindex : b.unstated.orderIndex = b.orderIndex := rfl
  rw [hindex]
  cases b.orderIndex[id]? with
  | none => rfl
  | some k =>
    dsimp only
    rw [unstated_updateBest, unstated_setSide, FinMap.map_erase, side_withIndex]
    cases k.side <;> rfl

/-- So does inserting. -/
theorem unstated_insert (b : OrderBook) (o : Order) :
    unstated <$> b.insert o = b.unstated.insert o.unstated := by
  unfold OrderBook.insert
  have hkey : o.unstated.key = o.key := rfl
  rw [hkey]
  cases o.key with
  | error e => rfl
  | ok k =>
    refine congrArg Except.ok ?_
    rw [unstated_updateBest, unstated_setSide, FinMap.map_insert, side_withIndex]
    unfold Order.unstated
    cases o.side <;> rfl

end OrderBook

namespace SpotEngineState

/-! ### States without statuses in books -/

variable (s : SpotEngineState) (m : SpotMarketId)

theorem get_unstated :
    s.unstated.orderbooks[m]? = (s.orderbooks[m]?).map OrderBook.unstated :=
  Std.ExtTreeMap.getElem?_map

theorem unstated_setOrderbook (b : OrderBook) :
    (s.setOrderbook m b).unstated = s.unstated.setOrderbook m b.unstated := by
  unfold unstated setOrderbook
  dsimp only
  rw [FinMap.map_insert]

/-- Removing an order looks at its record. -/
theorem unstated_removeOrder (id : OrderId) :
    (s.removeOrder m id).unstated = s.unstated.removeOrder m id := by
  cases ho : s.getOrder m id with
  | none => rw [removeOrder_of_none ho, removeOrder_of_none (s := s.unstated) ho]
  | some o =>
    obtain ⟨os, hos, -⟩ := Option.bind_eq_some_iff.mp ho
    have hids (t : SpotEngineState) : (t.removeFromIds o.owner m id).unstated =
        t.unstated.removeFromIds o.owner m id := by
      unfold removeFromIds
      rw [show t.unstated.accountOrders = t.accountOrders from rfl]
      cases (t.accountOrders[o.owner]?).bind (·[m]?) <;> rfl
    have hbook (t : SpotEngineState) : (t.removeFromBook m id).unstated =
        t.unstated.removeFromBook m id := by
      unfold removeFromBook
      rw [t.get_unstated m]
      cases t.orderbooks[m]? with
      | none => rfl
      | some b =>
        show (t.setOrderbook m (b.remove id).2).unstated = _
        rw [unstated_setOrderbook, OrderBook.unstated_remove]
        rfl
    rw [removeOrder_of_some ho hos, removeOrder_of_some (s := s.unstated) ho hos, hids, hbook]
    rfl

theorem unstated_updateOrderRemaining (id : OrderId) (r : Decimal) :
    (s.updateOrderRemaining m id r).unstated = s.unstated.updateOrderRemaining m id r := by
  cases ho : s.getOrder m id with
  | none =>
    rw [updateOrderRemaining_of_none ho, updateOrderRemaining_of_none (s := s.unstated) ho]
  | some o =>
    obtain ⟨os, hos, -⟩ := Option.bind_eq_some_iff.mp ho
    unfold updateOrderRemaining
    rw [show s.unstated.getOrder m id = some o from ho, ho,
      show s.unstated.orders[m]? = some os from hos, hos]
    rfl

theorem unstated_foldl {ι : Type} {f : SpotEngineState → ι → SpotEngineState}
    (hf : ∀ s i, (f s i).unstated = f s.unstated i) : ∀ (is : List ι) (s : SpotEngineState),
      (is.foldl f s).unstated = is.foldl f s.unstated
  | [], _ => rfl
  | i :: is, s => by
    rw [List.foldl_cons, List.foldl_cons, unstated_foldl hf is, hf]

/-- A loop whose book has no statuses. -/
def Matched.unstated (x : Matched) : Matched := { x with book := x.book.unstated }

theorem unstated_syncMakers (x : Matched) :
    (s.syncMakers m x).unstated = s.unstated.syncMakers m x.unstated := by
  unfold syncMakers
  dsimp only
  rw [unstated_foldl fun s (p : OrderId × Decimal) => s.unstated_updateOrderRemaining m p.1 p.2,
    unstated_foldl fun s id => s.unstated_removeOrder m id]
  rfl

/-! ### Matching -/

section Matching

variable {config : SpotMarketConfig} {x : Matched} {maker : Order}

theorem matchOne_unstated : Sim (fun y z => z = y.unstated) (matchOne m config x maker)
    (matchOne m config x.unstated maker.unstated) := by
  unfold matchOne
  refine .bind_same _ fun quoteSize => .bind_same _ fun makerFee => .bind_same _ fun takerFee =>
    .bind_same _ fun left => ?_
  refine .ite (fun _ => .ok ?_) fun _ => .bind_same _ fun makerLeft => .ite (fun _ => .ok ?_)
    fun _ => .bind (R := fun b b' => b' = b.unstated) ?_ fun b b' hb => .ok ?_
  · unfold Matched.unstated
    dsimp only
    rw [OrderBook.unstated_remove]
    rfl
  · unfold Matched.unstated
    dsimp only
    rw [OrderBook.unstated_remove]
    rfl
  · refine (Sim.of_map_eq (f := OrderBook.unstated) (g := id) ?_).mono fun _ _ h => h.symm
    rw [OrderBook.unstated_insert, OrderBook.unstated_remove, id_map]
    rfl
  · rw [hb]
    rfl

/-- The loop reads no status in the book. -/
theorem matchOrder_unstated {fuel : Nat} : Sim (fun y z => z = y.unstated)
    (matchOrder m config fuel x) (matchOrder m config fuel x.unstated) := by
  induction fuel generalizing x with
  | zero => exact .halt _
  | succ fuel ih =>
    unfold matchOrder
    refine .ite (fun _ => .ok rfl) fun _ => ?_
    rw [show x.unstated.book.best (opposite x.unstated.remaining.side) =
      (x.book.best (opposite x.remaining.side)).map Order.unstated from
        OrderBook.best_unstated x.book _]
    cases x.book.best (opposite x.remaining.side) with
    | none => exact .ok rfl
    | some maker =>
      refine .ite (fun _ => (matchOne_unstated m).bind fun y z h => ?_) fun _ => .ok rfl
      rw [h]
      exact ih

theorem turns_unstated (o : Order) (b : OrderBook) : turns o b.unstated = turns o b := by
  unfold turns
  rw [OrderBook.length_side_unstated]

end Matching

/-! ### Alike states -/

/-- The two states differ in the statuses of orders in books at most. -/
structure Alike (s s' : SpotEngineState) : Prop where
  tokens : s'.tokens = s.tokens
  markets : s'.markets = s.markets
  books : ∀ m : SpotMarketId, (s'.orderbooks[m]?).map OrderBook.unstated =
    (s.orderbooks[m]?).map OrderBook.unstated
  unifiedState : s'.unifiedState = s.unifiedState
  reserved : s'.reserved = s.reserved
  orders : s'.orders = s.orders
  accountOrders : s'.accountOrders = s.accountOrders
  nextTokenIndex : s'.nextTokenIndex = s.nextTokenIndex
  nextOrderId : s'.nextOrderId = s.nextOrderId
  nextMarketId : s'.nextMarketId = s.nextMarketId

/-- The same answer, and alike states. -/
def AlikeWith {α : Type} (x y : α × SpotEngineState) : Prop := x.1 = y.1 ∧ Alike x.2 y.2

theorem alike_iff {s s' : SpotEngineState} : Alike s s' ↔ s'.unstated = s.unstated := by
  constructor
  · intro h
    obtain ⟨⟩ := s
    obtain ⟨⟩ := s'
    obtain ⟨rfl, rfl, hbooks, rfl, rfl, rfl, rfl, rfl, rfl, rfl⟩ := h
    unfold unstated
    congr 1
    refine Std.ExtTreeMap.ext_getElem? fun m => ?_
    rw [Std.ExtTreeMap.getElem?_map, Std.ExtTreeMap.getElem?_map]
    exact hbooks m
  · intro h
    have hbooks : ∀ m : SpotMarketId, (s'.orderbooks[m]?).map OrderBook.unstated =
        (s.orderbooks[m]?).map OrderBook.unstated := fun m => by
      rw [← get_unstated, ← get_unstated, h]
    unfold unstated at h
    injection h with h1 h2 h3 h4 h5 h6 h7 h8 h9 h10
    exact ⟨h1, h2, hbooks, h4, h5, h6, h7, h8, h9, h10⟩

namespace Alike

variable {s s' : SpotEngineState} {m : SpotMarketId} {a : AccountAddress} {k : TokenIndex}
  {x : Decimal}

theorem refl (s : SpotEngineState) : Alike s s := alike_iff.mpr rfl

/-- What commutes with erasing statuses keeps states alike. -/
theorem map (h : Alike s s') (f : SpotEngineState → SpotEngineState)
    (hf : ∀ s, (f s).unstated = f s.unstated) : Alike (f s) (f s') := by
  rw [alike_iff, hf, hf, alike_iff.mp h]

/-! ### Reading -/

section Reading

variable (h : Alike s s')

include h

theorem getBalance (a : AccountAddress) (k : TokenIndex) :
    s'.getBalance a k = s.getBalance a k := by
  unfold SpotEngineState.getBalance
  rw [h.unifiedState, h.reserved]

theorem getMarket (m : SpotMarketId) : s'.getMarket m = s.getMarket m := by
  unfold SpotEngineState.getMarket
  rw [h.markets]

theorem getToken (k : TokenIndex) : s'.getToken k = s.getToken k := by
  unfold SpotEngineState.getToken
  rw [h.tokens]

theorem getOrder (m : SpotMarketId) (id : OrderId) : s'.getOrder m id = s.getOrder m id := by
  unfold SpotEngineState.getOrder
  rw [h.orders]

theorem orderIds (a : AccountAddress) (m : SpotMarketId) :
    s'.orderIds a m = s.orderIds a m := by
  unfold SpotEngineState.orderIds
  rw [h.accountOrders]

theorem getOrdersByAccount (a : AccountAddress) (m : SpotMarketId) :
    s'.getOrdersByAccount a m = s.getOrdersByAccount a m := by
  unfold SpotEngineState.getOrdersByAccount
  rw [h.orderIds, funext (h.getOrder m)]

end Reading

/-! ### Balances -/

section Writing

variable (h : Alike s s')

include h

theorem creditBalance : Sim Alike (s.creditBalance a k x) (s'.creditBalance a k x) := by
  unfold SpotEngineState.creditBalance
  rw [h.unifiedState]
  exact .bind_same _ fun u => .ok { h with unifiedState := rfl }

theorem debitBalance : Sim AlikeWith (s.debitBalance a k x) (s'.debitBalance a k x) := by
  unfold SpotEngineState.debitBalance
  rw [h.unifiedState]
  exact .bind_same _ fun p => .ok ⟨rfl, { h with unifiedState := rfl }⟩

theorem reserveBalance : Sim AlikeWith (s.reserveBalance a k x) (s'.reserveBalance a k x) := by
  unfold SpotEngineState.reserveBalance
  rw [h.getBalance, h.reserved]
  exact .bind_same _ fun available => .ite (fun _ => .ok ⟨rfl, h⟩) fun _ =>
    .bind_same _ fun r => .ok ⟨rfl, { h with reserved := rfl }⟩

theorem releaseBalance : Sim Alike (s.releaseBalance a k x) (s'.releaseBalance a k x) := by
  unfold SpotEngineState.releaseBalance
  rw [h.reserved]
  dsimp only
  cases s.reserved[(⟨a, k⟩ : PairKey _ _)]? with
  | none => exact .ok h
  | some r => exact .bind_same _ fun left => .ok { h with reserved := rfl }

theorem modifyMarket {f : SpotMarketState → Exec SpotMarketState} :
    Sim Alike (s.modifyMarket m f) (s'.modifyMarket m f) := by
  unfold SpotEngineState.modifyMarket
  rw [h.markets]
  cases s.markets[m]? with
  | none => exact .ok h
  | some market => exact .bind_same _ fun state => .ok { h with markets := rfl }

theorem takeOrderId : Sim AlikeWith s.takeOrderId s'.takeOrderId := by
  unfold SpotEngineState.takeOrderId
  rw [h.nextOrderId]
  exact .bind_same _ fun next => .ok ⟨rfl, { h with nextOrderId := rfl }⟩

/-! ### Orders -/

theorem removeOrder (m : SpotMarketId) (id : OrderId) :
    Alike (s.removeOrder m id) (s'.removeOrder m id) :=
  h.map (fun s => s.removeOrder m id) fun s => s.unstated_removeOrder m id

theorem setOrderbook {b b' : OrderBook} (hb : b'.unstated = b.unstated) :
    Alike (s.setOrderbook m b) (s'.setOrderbook m b') := by
  rw [alike_iff, unstated_setOrderbook, unstated_setOrderbook, hb, alike_iff.mp h]

theorem syncMakers {y y' : Matched} (hy : y'.unstated = y.unstated) :
    Alike (s.syncMakers m y) (s'.syncMakers m y') := by
  rw [alike_iff, unstated_syncMakers, unstated_syncMakers, hy, alike_iff.mp h]

theorem setOrderIds {ids : List OrderId} :
    Alike (s.setOrderIds a m ids) (s'.setOrderIds a m ids) := by
  unfold SpotEngineState.setOrderIds
  rw [h.accountOrders]
  exact { h with accountOrders := rfl }

theorem setOrders {os : FinMap OrderId Order} : Alike (s.setOrders m os) (s'.setOrders m os) := by
  unfold SpotEngineState.setOrders
  rw [h.orders]
  exact { h with orders := rfl }

theorem insertInBook {o : Order} :
    Sim Alike
      (match s.orderbooks[m]? with
        | none => return s
        | some book => do return s.setOrderbook m (← book.insert o) : Exec SpotEngineState)
      (match s'.orderbooks[m]? with
        | none => return s'
        | some book => do return s'.setOrderbook m (← book.insert o)) := by
  have hbook := h.books m
  cases hm : s.orderbooks[m]? with
  | none =>
    rw [hm] at hbook
    rw [Option.map_eq_none_iff.mp hbook]
    exact .ok h
  | some b =>
    rw [hm] at hbook
    obtain ⟨b', hb', heq⟩ := Option.map_eq_some_iff.mp hbook
    rw [hb']
    refine .bind (R := fun c c' => c'.unstated = c.unstated) ?_ fun c c' hc =>
      .ok (h.setOrderbook hc)
    refine (Sim.of_map_eq ?_).mono fun _ _ h => Eq.symm h
    rw [OrderBook.unstated_insert, OrderBook.unstated_insert, heq]

theorem addOrder {o : Order} : Sim Alike (s.addOrder o) (s'.addOrder o) := by
  unfold SpotEngineState.addOrder
  rw [h.orders]
  refine .bind (R := Alike) ?_ fun t t' ht => .ok ?_
  · cases s.orders[o.marketId]? with
    | none => exact h.insertInBook
    | some os => exact h.setOrders.insertInBook
  · rw [ht.orderIds]
    exact ht.setOrderIds

/-! ### Calls -/

theorem applyFill {config : SpotMarketConfig} {fill : SpotFill} :
    Sim AlikeWith (s.applyFill config fill) (s'.applyFill config fill) := by
  unfold SpotEngineState.applyFill
  refine .bind_same _ fun l => h.releaseBalance.bind fun s₁ t₁ h₁ =>
    h₁.releaseBalance.bind fun s₂ t₂ h₂ => h₂.debitBalance.bind ?_
  rintro ⟨paid, s₃⟩ ⟨_, t₃⟩ ⟨rfl, h₃⟩
  refine .ite (fun _ => .ok ⟨rfl, h₃⟩) fun _ => h₃.creditBalance.bind fun s₄ t₄ h₄ =>
    .bind_same _ fun receives => h₄.debitBalance.bind ?_
  rintro ⟨delivered, s₅⟩ ⟨_, t₅⟩ ⟨rfl, h₅⟩
  exact .ite (fun _ => .ok ⟨rfl, h₅⟩) fun _ => h₅.creditBalance.bind fun s₆ t₆ h₆ =>
    h₆.modifyMarket.bind fun s₇ t₇ h₇ => .ok ⟨rfl, h₇⟩

theorem settleRemaining {o : Order} {reserve : Decimal} {fills : List SpotFill} :
    Sim Alike (s.settleRemaining o k reserve fills) (s'.settleRemaining o k reserve fills) := by
  unfold SpotEngineState.settleRemaining
  exact .bind_same _ fun filled => .bind_same _ fun left => .ite (fun _ => h.addOrder) fun _ =>
    .ite (fun _ => h.releaseBalance) fun _ => .ok h

omit h in
theorem applyFills {config : SpotMarketConfig} : ∀ (fills : List SpotFill)
    {s s' : SpotEngineState}, Alike s s' →
      Sim AlikeWith (SpotEngineState.applyFills config fills s)
        (SpotEngineState.applyFills config fills s')
  | [], _, _, h => .ok ⟨rfl, h⟩
  | fill :: fills, _, _, h => by
    refine h.applyFill.bind ?_
    rintro ⟨r, s₁⟩ ⟨_, t₁⟩ ⟨rfl, h₁⟩
    cases r with
    | error err => exact .ok ⟨rfl, h₁⟩
    | ok u => exact applyFills fills h₁

theorem executeOrder {market : SpotMarket} {o : Order} {reserve : Decimal} :
    Sim AlikeWith (s.executeOrder m market o k reserve)
      (s'.executeOrder m market o k reserve) := by
  unfold SpotEngineState.executeOrder
  have hbook := h.books m
  cases hm : s.orderbooks[m]? with
  | none =>
    rw [hm] at hbook
    rw [Option.map_eq_none_iff.mp hbook]
    exact .ok ⟨rfl, h⟩
  | some b =>
    rw [hm] at hbook
    obtain ⟨b', hb', heq⟩ := Option.map_eq_some_iff.mp hbook
    rw [hb']
    -- both loops run like the one on the book without statuses
    have hloop : Sim (fun y z => z.unstated = y.unstated)
        (matchOrder m market.config (turns o b) ⟨o, b, [], [], []⟩)
        (matchOrder m market.config (turns o b') ⟨o, b', [], [], []⟩) := by
      have herased : ∀ b : OrderBook, Sim (fun y z => z = y.unstated)
          (matchOrder m market.config (turns o b) ⟨o, b, [], [], []⟩)
          (matchOrder m market.config (turns o b) ⟨o, b.unstated, [], [], []⟩) :=
        fun b => matchOrder_unstated m
      have hfirst := herased b
      have hsecond := herased b'
      rw [heq, ← turns_unstated o b', heq, turns_unstated] at hsecond
      rw [← turns_unstated o b', heq, turns_unstated]
      exact hfirst.comp hsecond.symm fun y w z hy hz => hz.symm.trans hy
    refine hloop.bind fun y z hyz => ?_
    have hremaining : z.remaining = y.remaining := by
      show z.unstated.remaining = y.unstated.remaining
      rw [hyz]
    have hfills : z.fills = y.fills := by
      show z.unstated.fills = y.unstated.fills
      rw [hyz]
    have hbooks : z.book.unstated = y.book.unstated := congrArg Matched.book hyz
    have hsynced := (h.setOrderbook (m := m) hbooks).syncMakers (m := m) hyz
    dsimp only
    rw [hremaining, hfills]
    refine (applyFills y.fills hsynced).bind ?_
    rintro ⟨r, s₁⟩ ⟨_, t₁⟩ ⟨rfl, h₁⟩
    cases r with
    | error err => exact .ok ⟨rfl, h₁⟩
    | ok u => exact h₁.settleRemaining.bind fun s₂ t₂ h₂ => .ok ⟨rfl, h₂⟩

theorem placeOrder {q : OrderRequest} {time : Timestamp} :
    Sim AlikeWith (s.placeOrder a m q time) (s'.placeOrder a m q time) := by
  unfold SpotEngineState.placeOrder
  rw [h.getMarket]
  cases s.getMarket m with
  | none => exact .ok ⟨rfl, h⟩
  | some market =>
    refine .ite (fun _ => .ok ⟨rfl, h⟩) fun _ => .bind_same _ fun checked => ?_
    cases checked with
    | error err => exact .ok ⟨rfl, h⟩
    | ok u =>
      refine .bind_same _ fun p => ?_
      obtain ⟨token, reserve⟩ := p
      dsimp only
      rw [h.getBalance]
      refine .bind_same _ fun available => .ite (fun _ => .ok ⟨rfl, h⟩) fun _ =>
        h.reserveBalance.bind ?_
      rintro ⟨reserved, s₁⟩ ⟨_, t₁⟩ ⟨rfl, h₁⟩
      refine .ite (fun _ => .ok ⟨rfl, h₁⟩) fun _ => h₁.takeOrderId.bind ?_
      rintro ⟨id, s₂⟩ ⟨_, t₂⟩ ⟨rfl, h₂⟩
      exact h₂.executeOrder

theorem cancelOrder {id : OrderId} :
    Sim AlikeWith (s.cancelOrder a m id) (s'.cancelOrder a m id) := by
  unfold SpotEngineState.cancelOrder
  rw [h.getOrder]
  cases s.getOrder m id with
  | none => exact .ok ⟨rfl, h⟩
  | some o =>
    dsimp only
    refine .ite (fun _ => .ok ⟨rfl, h⟩) fun _ => ?_
    rw [h.getMarket]
    cases s.getMarket m with
    | none => exact .ok ⟨rfl, h⟩
    | some market =>
      exact .bind_same _ fun p => h.releaseBalance.bind fun s₁ t₁ h₁ =>
        .ok ⟨rfl, h₁.removeOrder m id⟩

omit h in
theorem cancelOrders : ∀ (os : List Order) {s s' : SpotEngineState}, Alike s s' →
    Sim AlikeWith (SpotEngineState.cancelOrders a m os s) (SpotEngineState.cancelOrders a m os s')
  | [], _, _, h => .ok ⟨rfl, h⟩
  | o :: os, _, _, h => by
    refine h.cancelOrder.bind ?_
    rintro ⟨r, s₁⟩ ⟨_, t₁⟩ ⟨rfl, h₁⟩
    refine (cancelOrders os h₁).bind ?_
    rintro ⟨rest, s₂⟩ ⟨_, t₂⟩ ⟨rfl, h₂⟩
    cases r with
    | error err => exact .ok ⟨rfl, h₂⟩
    | ok c => exact .ok ⟨rfl, h₂⟩

theorem cancelAllOrders :
    Sim AlikeWith (s.cancelAllOrders a m) (s'.cancelAllOrders a m) := by
  unfold SpotEngineState.cancelAllOrders
  rw [h.getOrdersByAccount]
  exact cancelOrders _ h

theorem deployToken {params : SpotTokenDeployParams} :
    Sim AlikeWith (s.deployToken params a) (s'.deployToken params a) := by
  unfold SpotEngineState.deployToken
  rw [h.nextTokenIndex]
  refine .ite (fun _ => .ok ⟨rfl, h⟩) fun _ => .bind_same _ fun needed =>
    .ite (fun _ => .ok ⟨rfl, h⟩) fun _ => .bind_same _ fun next => ?_
  refine .bind (R := Alike) (.foldlM _ { h with nextTokenIndex := rfl } fun p _ t t' ht =>
    ht.creditBalance) fun s₁ t₁ h₁ => ?_
  rw [h₁.nextMarketId, h₁.tokens, h₁.markets, h₁.orders]
  refine .bind_same _ fun nextMarketId => .bind_same _ fun config => .ok ⟨rfl, ?_⟩
  refine { h₁ with
    tokens := rfl, markets := rfl, orders := rfl, nextMarketId := rfl, books := fun k => ?_ }
  dsimp only
  rw [FinMap.get_insert, FinMap.get_insert]
  split
  · rfl
  · exact h₁.books k

theorem viewTransfer {toEvm : Bool} :
    Sim AlikeWith (s.viewTransfer a k x toEvm) (s'.viewTransfer a k x toEvm) := by
  unfold SpotEngineState.viewTransfer
  rw [h.getBalance, h.unifiedState]
  exact .ite (fun _ => .bind_same _ fun available => .ite (fun _ => .ok ⟨rfl, h⟩) fun _ =>
    .bind_same _ fun p => .ok ⟨rfl, { h with unifiedState := rfl }⟩) fun _ =>
    .bind_same _ fun p => .ok ⟨rfl, { h with unifiedState := rfl }⟩

theorem bridgeTransfer {keccak256 : List UInt8 → List UInt8} {b : AccountAddress}
    {toCore : Bool} : Sim AlikeWith (s.bridgeTransfer keccak256 k a b x toCore)
      (s'.bridgeTransfer keccak256 k a b x toCore) := by
  unfold SpotEngineState.bridgeTransfer
  rw [h.getToken]
  cases s.getToken k with
  | none => exact .ok ⟨rfl, h⟩
  | some token =>
    refine .ite (fun _ => .ite (fun _ => .ok ⟨rfl, h⟩) fun _ =>
      h.creditBalance.bind fun s₁ t₁ h₁ => .ok ⟨rfl, h₁⟩) fun _ =>
      .ite (fun _ => .ok ⟨rfl, h⟩) fun _ => h.debitBalance.bind ?_
    rintro ⟨paid, s₁⟩ ⟨_, t₁⟩ ⟨rfl, h₁⟩
    dsimp only
    rw [h₁.getBalance]
    exact .ite (fun _ => .bind_same _ fun available => .ok ⟨rfl, h₁⟩) fun _ => .ok ⟨rfl, h₁⟩

end Writing

end Alike

/-! ### Books that hold what is recorded -/

theorem mem_recorded {s : SpotEngineState} (hs : s.Housed) {m : SpotMarketId} {o : Order} :
    o ∈ s.recorded m ↔ s.getOrder m o.id = some o := by
  have hget : ∀ (id : OrderId) (o : Order),
      ((s.orders[m]?).getD ∅)[id]? = some o ↔ s.getOrder m id = some o := by
    intro id o
    unfold getOrder
    cases s.orders[m]? <;> simp
  unfold recorded
  rw [FinMap.mem_values (g := Order.id) fun id o ho =>
    (hs.filed.record m id o ((hget id o).mp ho)).2.1, hget]

/-- Books that say of every order what its record says hold the recorded orders. -/
theorem Booked.recorded {s : SpotEngineState} (h : s.Booked) (hs : s.Housed) :
    s.BooksRecorded := by
  intro m b hb
  refine (h.wf m b hb).unstated.holds fun o => ?_
  rw [OrderBook.get_unstated, List.mem_map]
  show _ ↔ inBook b o.id = some o
  rw [h.same m b hb]
  constructor
  · rintro ⟨o', ho', rfl⟩
    exact Option.map_eq_some_iff.mpr ⟨o', (mem_recorded hs).mp ho', rfl⟩
  · intro ho
    obtain ⟨o', ho', heq⟩ := Option.map_eq_some_iff.mp ho
    refine ⟨o', (mem_recorded hs).mpr ?_, heq⟩
    have hid : o'.unstated.id = o.id := congrArg Order.id heq
    rw [← ho', ← hid]
    rfl

end SpotEngineState

namespace SpotCall

open SpotEngineState

/-- An order that may rest has a price on its own side of zero. -/
def RestsOnOwnSide : SpotCall → Prop
  | placeOrder account _ request timestamp =>
    (Order.new 0 account request timestamp).shouldRest = true →
      (Order.new 0 account request timestamp).OnOwnSide
  | _ => True

instance : DecidablePred RestsOnOwnSide
  | placeOrder _ _ _ _ => inferInstanceAs (Decidable (_ → _))
  | deployToken .. | share .. | cancelOrder .. | cancelAllOrders .. => isTrue trivial

/-- **Step.** -/
theorem step_booked {call : SpotCall} {s s' : SpotEngineState} (h : s.Booked)
    (hs : s.maps.Steady s.nextOrderId) (hown : call.RestsOnOwnSide) (hstep : call.step s = .ok s') :
    s'.Booked := by
  cases call with
  | deployToken params deployer =>
    obtain ⟨⟨r, s₁⟩, hcall, hstep⟩ := bind_inv hstep
    obtain rfl := pure_inv hstep
    exact h.deployToken hcall
  | share sheet =>
    obtain rfl := pure_inv hstep
    exact h.of_maps rfl
  | placeOrder account market request timestamp =>
    obtain ⟨⟨r, s₁⟩, hcall, hstep⟩ := bind_inv hstep
    obtain rfl := pure_inv hstep
    refine h.placeOrder (fun k => ?_) hown hcall
    -- the next id is not recorded anywhere
    by_contra hne
    obtain ⟨o, ho⟩ := Option.ne_none_iff_exists'.mp hne
    exact hs.not_rests (.inl ⟨k, o, ho⟩)
  | cancelOrder account market orderId =>
    obtain ⟨⟨r, s₁⟩, hcall, hstep⟩ := bind_inv hstep
    obtain rfl := pure_inv hstep
    exact h.cancelOrder hcall
  | cancelAllOrders account market =>
    obtain ⟨⟨r, s₁⟩, hcall, hstep⟩ := bind_inv hstep
    obtain rfl := pure_inv hstep
    exact h.cancelOrders hcall

/-- **Run.** Books and records agree as long as orders rest on their own side of zero only. -/
theorem booksRecorded_of_ownSide {u : UnifiedState} {s : SpotEngineState}
    (h : Run.Reaches step (fun _ call => call.RestsOnOwnSide) (.withUnifiedState u) s) :
    s.BooksRecorded := by
  have hinv := h.invariant
    (P := fun s => (s.Housed ∧ s.maps.Steady s.nextOrderId) ∧ s.Booked)
    ⟨Leads.steady (u := u) .refl, (coherent_withUnifiedState u).booked⟩
    fun _ _ _ hs hown hstep =>
      ⟨step_steady hs.1 hstep, step_booked hs.2 hs.1.2 hown hstep⟩
  exact hinv.2.recorded hinv.1.1

end SpotCall

/-! ### Operations -/

/-- An operation of the spot engine: one of the calls, or a transfer to or from the EVM. -/
inductive SpotOp
  | call (call : SpotCall)
  | viewTransfer (account : AccountAddress) (token : TokenIndex) (amount : Decimal) (toEvm : Bool)
  | bridgeTransfer (token : TokenIndex) (sender receiver : AccountAddress) (amount : Decimal)
    (isToCore : Bool)

/-- What an operation returns. -/
inductive SpotAnswer
  | deployed (r : Except Error SpotToken)
  | shared
  | placed (r : Except Error (Order × List SpotFill))
  | canceled (r : Except Error Order)
  | canceledAll (orders : List Order)
  | transferred (r : Except Error Unit)

namespace SpotOp

open SpotEngineState

variable (keccak256 : List UInt8 → List UInt8)

/-- An operation with its answer. -/
def perform (op : SpotOp) (s : SpotEngineState) : Exec (SpotAnswer × SpotEngineState) :=
  match op with
  | call (.deployToken params deployer) => do
    let (r, s) ← s.deployToken params deployer
    return (.deployed r, s)
  | call (.share sheet) => return (.shared, { s with unifiedState := sheet })
  | call (.placeOrder account market request timestamp) => do
    let (r, s) ← s.placeOrder account market request timestamp
    return (.placed r, s)
  | call (.cancelOrder account market orderId) => do
    let (r, s) ← s.cancelOrder account market orderId
    return (.canceled r, s)
  | call (.cancelAllOrders account market) => do
    let (orders, s) ← s.cancelAllOrders account market
    return (.canceledAll orders, s)
  | viewTransfer account token amount toEvm => do
    let (r, s) ← s.viewTransfer account token amount toEvm
    return (.transferred r, s)
  | bridgeTransfer token sender receiver amount isToCore => do
    let (r, s) ← s.bridgeTransfer keccak256 token sender receiver amount isToCore
    return (.transferred r, s)

/-- Operations one after the other, with their answers. -/
def performAll : List SpotOp → SpotEngineState → Exec (List SpotAnswer × SpotEngineState)
  | [], s => return ([], s)
  | op :: ops, s => do
    let (answer, s) ← perform keccak256 op s
    let (answers, s) ← performAll ops s
    return (answer :: answers, s)

/-- **Step.** Alike states answer alike. -/
theorem alike_perform {s s' : SpotEngineState} (h : Alike s s') (op : SpotOp) :
    Sim AlikeWith (perform keccak256 op s) (perform keccak256 op s') := by
  cases op with
  | call call =>
    cases call with
    | deployToken params deployer =>
      refine h.deployToken.bind ?_
      rintro ⟨r, s₁⟩ ⟨_, t₁⟩ ⟨rfl, h₁⟩
      exact .ok ⟨rfl, h₁⟩
    | share sheet => exact .ok ⟨rfl, { h with unifiedState := rfl }⟩
    | placeOrder account market request timestamp =>
      refine h.placeOrder.bind ?_
      rintro ⟨r, s₁⟩ ⟨_, t₁⟩ ⟨rfl, h₁⟩
      exact .ok ⟨rfl, h₁⟩
    | cancelOrder account market orderId =>
      refine h.cancelOrder.bind ?_
      rintro ⟨r, s₁⟩ ⟨_, t₁⟩ ⟨rfl, h₁⟩
      exact .ok ⟨rfl, h₁⟩
    | cancelAllOrders account market =>
      refine h.cancelAllOrders.bind ?_
      rintro ⟨orders, s₁⟩ ⟨_, t₁⟩ ⟨rfl, h₁⟩
      exact .ok ⟨rfl, h₁⟩
  | viewTransfer account token amount toEvm =>
    refine h.viewTransfer.bind ?_
    rintro ⟨r, s₁⟩ ⟨_, t₁⟩ ⟨rfl, h₁⟩
    exact .ok ⟨rfl, h₁⟩
  | bridgeTransfer token sender receiver amount isToCore =>
    refine h.bridgeTransfer.bind ?_
    rintro ⟨r, s₁⟩ ⟨_, t₁⟩ ⟨rfl, h₁⟩
    exact .ok ⟨rfl, h₁⟩

/-- **Run.** -/
theorem alike_performAll (ops : List SpotOp) {s s' : SpotEngineState} (h : Alike s s') :
    Sim AlikeWith (performAll keccak256 ops s) (performAll keccak256 ops s') := by
  induction ops generalizing s s' with
  | nil => exact .ok ⟨rfl, h⟩
  | cons op ops ih =>
    refine (alike_perform keccak256 h op).bind ?_
    rintro ⟨answer, s₁⟩ ⟨_, t₁⟩ ⟨rfl, h₁⟩
    refine (ih h₁).bind ?_
    rintro ⟨answers, s₂⟩ ⟨_, t₂⟩ ⟨rfl, h₂⟩
    exact .ok ⟨rfl, h₂⟩

/-- Restoring the snapshot of `s` into `t`, and the sheet of `s` with it, gives a state that
is alike and answers every sequence of operations as `s` does. -/
def RestoresFaithfully (ord : HashOrder) (s t : SpotEngineState) : Prop :=
  ∃ r, t.restore ord s.snapshot = .ok r ∧
    Alike s { r with unifiedState := s.unifiedState } ∧
    ∀ ops, Prod.fst <$> performAll keccak256 ops { r with unifiedState := s.unifiedState } =
      Prod.fst <$> performAll keccak256 ops s

/-- **Snapshot and restore.** From a state that calls lead to, into whatever state, a restore is
faithful exactly when each book holds the recorded orders; and so it is while orders rest on
their own side of zero. -/
theorem restores_faithfully_iff {u : UnifiedState} {s : SpotEngineState}
    (hs : SpotCall.Leads u s) (ord : HashOrder) (t : SpotEngineState) :
    (RestoresFaithfully keccak256 ord s t ↔ s.BooksRecorded) ∧
      (Run.Reaches SpotCall.step (fun _ call => call.RestsOnOwnSide) (.withUnifiedState u) s →
        s.BooksRecorded) := by
  obtain ⟨hhoused, -⟩ := hs.steady
  obtain ⟨books, hrestore, hdomain, hbooks⟩ := restore_snapshot hhoused ord t
  have hiff : Alike s { s with orderbooks := books } ↔ s.BooksRecorded :=
    alike_iff.trans (unstated_eq_iff hhoused hdomain hbooks)
  refine ⟨⟨?_, fun hrecorded => ?_⟩, SpotCall.booksRecorded_of_ownSide⟩
  · rintro ⟨r, hr, halike, -⟩
    obtain rfl := ok_unique hrestore hr
    exact hiff.mp halike
  · have halike := hiff.mpr hrecorded
    refine ⟨_, hrestore, halike, fun ops => ?_⟩
    exact ((alike_performAll keccak256 ops halike).mono fun x y hxy => hxy.1).map_eq.symm

/-- How many fills the placements of a sequence return. -/
def countFills : List SpotAnswer → Nat
  | [] => 0
  | .placed (.ok (_, fills)) :: answers => fills.length + countFills answers
  | _ :: answers => countFills answers

open SpotCall in
/-- Two sells, one of them cancelled and the other filled in part, restored into a new engine. -/
theorem restores_faithfully_afterFill : ∃ s t,
    Run.Reaches SpotCall.step (fun _ call => call.RestsOnOwnSide)
      (.withUnifiedState fiftyOfEight) s ∧
    (s.getOrder 128 1000000).map (·.remainingSize) = some ⟨200000000, 8⟩ ∧
    t.getOrder 128 1000000 = none ∧
    ∀ keccak256, RestoresFaithfully keccak256 .reversed s t := by
  obtain ⟨s, hs, hleft⟩ := Exec.exists_of_test
    (x := fillRun.foldlM
      (fun (s : SpotEngineState) (call : SpotCall) =>
        if call.RestsOnOwnSide then call.step s else .error .panic)
      (.withUnifiedState fiftyOfEight))
    (p := fun s => (s.getOrder 128 1000000).map (·.remainingSize) = some ⟨200000000, 8⟩)
    (by decide +kernel)
  have hreach := Run.Reaches.of_checked (fun s call => inferInstance) hs
  refine ⟨s, .withUnifiedState .new, hreach, of_decide_eq_true hleft, by
    simp [withUnifiedState, getOrder], fun keccak256 => ?_⟩
  have hboth := restores_faithfully_iff keccak256 (hreach.mono fun _ _ _ => trivial) .reversed
    (.withUnifiedState .new)
  exact hboth.1.mpr (hboth.2 hreach)

/-- A limit order of one at a price of zero. -/
def atZero (side : OrderSide) : OrderRequest :=
  { SpotCall.atOne 128 side 100000000 with price := ⟨0, 8⟩ }

/-- A buy at zero that is cancelled. -/
def freeRun : List SpotCall :=
  [.deployToken SpotCall.tokenOfSeven 7, .placeOrder 8 128 (atZero .buy) 1,
    .cancelOrder 8 128 1000000]

/-- The cancelled buy is still in its book, and a sell meets it; after a restore it does not. -/
theorem canceled_buy_forgotten : ∃ (s r : SpotEngineState) (ops : List SpotOp),
    SpotCall.Leads SpotCall.fiftyOfEight s ∧ s.restore .sorted s.snapshot = .ok r ∧
    (fun x => countFills x.1) <$> performAll id ops s = .ok 1 ∧
    (fun x => countFills x.1) <$> performAll id ops r = .ok 0 ∧
    ¬ RestoresFaithfully id .sorted s s := by
  let ops : List SpotOp := [.call (.placeOrder 7 128 (atZero .sell) 2)]
  obtain ⟨s, hs, htest⟩ := Exec.exists_of_test
    (x := freeRun.foldlM (fun s (call : SpotCall) => call.step s)
      (.withUnifiedState SpotCall.fiftyOfEight))
    (p := fun s =>
      decide ((fun x => countFills x.1) <$> performAll id ops s = (.ok 1 : Exec Nat)) &&
      decide ((do
        let r ← s.restore .sorted s.snapshot
        let x ← performAll id ops r
        return countFills x.1 : Exec Nat) = .ok 0)) (by decide +kernel)
  simp only [Bool.and_eq_true, decide_eq_true_eq] at htest
  obtain ⟨hbefore, hafter⟩ := htest
  obtain ⟨r, hr, hafter⟩ := bind_inv hafter
  obtain ⟨x, hx, hcount⟩ := bind_inv hafter
  have hrestored : (fun x => countFills x.1) <$> performAll id ops r = .ok 0 := by
    rw [hx]
    exact hcount
  refine ⟨s, r, ops, .of_foldlM (fun _ _ _ => trivial) hs, hr, hbefore, hrestored, ?_⟩
  rintro ⟨r', hr', -, hsame⟩
  obtain rfl := ok_unique hr hr'
  have hsheet : { r with unifiedState := s.unifiedState } = r := by
    obtain ⟨books, -, hr⟩ := bind_inv hr
    obtain rfl := pure_inv hr
    rfl
  have hcounts := congrArg (fun x => countFills <$> x) (hsame ops)
  rw [hsheet, ← comp_map, ← comp_map] at hcounts
  exact absurd (hrestored.symm.trans (hcounts.trans hbefore)) (by decide)

end SpotOp

end Hypercore
