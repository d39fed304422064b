import Hypercore.Engine.OrderMaps
import Hypercore.Spot.Engine
/-!
# Hypercore.Spot.Filing

Where the spot engine keeps its records and books.

Every call of the spot engine keeps records under their own market and id, books with
right price caches, and a book for each market (`Kept`). Which orders rest is another
matter: the books and the orders map are written separately, and may disagree.
-/

namespace Hypercore

open Exec Int128

open OrderMaps (FilingKept)

namespace SpotEngineState

/-- The orders maps and the books. -/
def maps (s : SpotEngineState) : OrderMaps := ⟨s.orders, s.orderbooks⟩

/-- Records are where they belong, and each market has a book. -/
structure Housed (s : SpotEngineState) : Prop where
  filed : s.maps.Filed
  listed : ∀ m : SpotMarketId, (s.orderbooks[m]?).isSome = (s.markets[m]?).isSome

/-- Filing is kept, and no market comes or goes. -/
structure Kept (s s' : SpotEngineState) : Prop where
  filing : FilingKept s.maps s'.maps
  markets : ∀ m : SpotMarketId, (s'.markets[m]?).isSome = (s.markets[m]?).isSome

/-- Only balances and reserves changed. -/
def BalancesOnly (s s' : SpotEngineState) : Prop :=
  ∃ unifiedState reserved, s' = { s with unifiedState, reserved }

/-- Only balances, reserves and the states of markets changed. -/
def TradesOnly (s s' : SpotEngineState) : Prop :=
  ∃ unifiedState reserved markets, s' = { s with unifiedState, reserved, markets } ∧
    ∀ m : SpotMarketId, (markets[m]?).isSome = (s.markets[m]?).isSome

section Frames

variable {s s' t : SpotEngineState}

theorem Kept.refl (s : SpotEngineState) : Kept s s := ⟨.refl _, fun _ => rfl⟩

theorem Kept.trans (h : Kept s s') (h' : Kept s' t) : Kept s t :=
  ⟨h.filing.trans h'.filing, fun m => (h'.markets m).trans (h.markets m)⟩

theorem Kept.housed (h : Kept s s') (hs : s.Housed) : s'.Housed :=
  ⟨h.filing.filed hs.filed,
    fun m => (h.filing.books m).trans ((hs.listed m).trans (h.markets m).symm)⟩

theorem Kept.of_maps (h : FilingKept s.maps s'.maps) (hm : s'.markets = s.markets) : Kept s s' :=
  ⟨h, fun m => by rw [hm]⟩

theorem BalancesOnly.refl (s : SpotEngineState) : BalancesOnly s s := ⟨_, _, rfl⟩

theorem BalancesOnly.trans (h : BalancesOnly s s') (h' : BalancesOnly s' t) :
    BalancesOnly s t := by
  obtain ⟨_, _, rfl⟩ := h
  obtain ⟨u, r, rfl⟩ := h'
  exact ⟨u, r, rfl⟩

theorem BalancesOnly.trades (h : BalancesOnly s s') : TradesOnly s s' := by
  obtain ⟨u, r, rfl⟩ := h
  exact ⟨u, r, s.markets, rfl, fun _ => rfl⟩

theorem TradesOnly.trans (h : TradesOnly s s') (h' : TradesOnly s' t) : TradesOnly s t := by
  obtain ⟨_, _, _, rfl, hm⟩ := h
  obtain ⟨u, r, ms, rfl, hm'⟩ := h'
  exact ⟨u, r, ms, rfl, fun m => (hm' m).trans (hm m)⟩

theorem TradesOnly.kept (h : TradesOnly s s') : Kept s s' := by
  obtain ⟨u, r, ms, rfl, hm⟩ := h
  exact ⟨.refl _, hm⟩

theorem TradesOnly.maps (h : TradesOnly s s') : s'.maps = s.maps := by
  obtain ⟨_, _, _, rfl, -⟩ := h
  rfl

theorem TradesOnly.nextOrderId (h : TradesOnly s s') : s'.nextOrderId = s.nextOrderId := by
  obtain ⟨_, _, _, rfl, -⟩ := h
  rfl

theorem BalancesOnly.kept (h : BalancesOnly s s') : Kept s s' := h.trades.kept

variable {a : AccountAddress} {k : TokenIndex} {x : Decimal} {b : Bool}

theorem creditBalance_only (h : s.creditBalance a k x = .ok s') : BalancesOnly s s' := by
  obtain ⟨u, -, h⟩ := bind_inv h
  obtain rfl := pure_inv h
  exact ⟨u, s.reserved, rfl⟩

theorem debitBalance_only (h : s.debitBalance a k x = .ok (b, s')) : BalancesOnly s s' := by
  obtain ⟨⟨_, u⟩, -, h⟩ := bind_inv h
  obtain ⟨-, rfl⟩ := pair_inv h
  exact ⟨u, s.reserved, rfl⟩

theorem reserveBalance_only (h : s.reserveBalance a k x = .ok (b, s')) : BalancesOnly s s' := by
  obtain ⟨available, -, h⟩ := bind_inv h
  split at h
  · obtain ⟨-, rfl⟩ := pair_inv h
    exact .refl _
  · obtain ⟨reserved, -, h⟩ := bind_inv h
    obtain ⟨-, rfl⟩ := pair_inv h
    exact ⟨s.unifiedState, _, rfl⟩

theorem reserveBalance_refused (h : s.reserveBalance a k x = .ok (false, s')) : s' = s := by
  obtain ⟨available, -, h⟩ := bind_inv h
  split at h
  · exact (pair_inv h).2.symm
  · obtain ⟨reserved, -, h⟩ := bind_inv h
    cases (pair_inv h).1

theorem releaseBalance_only (h : s.releaseBalance a k x = .ok s') : BalancesOnly s s' := by
  unfold releaseBalance at h
  dsimp only at h
  split at h
  · obtain rfl := pure_inv h
    exact .refl _
  · obtain ⟨left, -, h⟩ := bind_inv h
    obtain rfl := pure_inv h
    exact ⟨s.unifiedState, _, rfl⟩

end Frames

/-! ### Orders -/

section Orders

variable {s s' : SpotEngineState} {m : SpotMarketId} {id : OrderId}

theorem maps_orders (s : SpotEngineState) : s.maps.orders = s.orders := rfl

theorem maps_orderbooks (s : SpotEngineState) : s.maps.orderbooks = s.orderbooks := rfl

theorem maps_getOrder (s : SpotEngineState) (m : SpotMarketId) (id : OrderId) :
    s.maps.getOrder m id = s.getOrder m id := rfl

-- Adding and removing an order, place by place.

/-- Record an order in a market that has a map of orders. -/
def putRecord (s : SpotEngineState) (o : Order) : SpotEngineState :=
  match s.orders[o.marketId]? with
  | none => s
  | some os => s.setOrders o.marketId (os.insert o.id o)

/-- Insert an order into the book of its market. -/
def insertInBook (s : SpotEngineState) (o : Order) : Exec SpotEngineState :=
  match s.orderbooks[o.marketId]? with
  | none => return s
  | some book => do return s.setOrderbook o.marketId (← book.insert o)

/-- Remove an order from the book of a market. -/
def removeFromBook (s : SpotEngineState) (m : SpotMarketId) (id : OrderId) : SpotEngineState :=
  match s.orderbooks[m]? with
  | none => s
  | some book => s.setOrderbook m (book.remove id).2

/-- Remove an order from those of an account. -/
def removeFromIds (s : SpotEngineState) (a : AccountAddress) (m : SpotMarketId) (id : OrderId) :
    SpotEngineState :=
  match (s.accountOrders[a]?).bind (·[m]?) with
  | none => s
  | some ids => s.setOrderIds a m (ids.filter (· ≠ id))

variable {o : Order}

theorem addOrder_eq_ok (h : s.addOrder o = .ok s') :
    ∃ s₁, (s.putRecord o).insertInBook o = .ok s₁ ∧
      s' = s₁.setOrderIds o.owner o.marketId (s₁.orderIds o.owner o.marketId ++ [o.id]) := by
  obtain ⟨s₁, h1, h⟩ := bind_inv h
  exact ⟨s₁, h1, (pure_inv h).symm⟩

/-- Adding an order writes to the three places only. -/
theorem addOrder_frame (h : s.addOrder o = .ok s') :
    ∃ orders orderbooks accountOrders, s' = { s with orders, orderbooks, accountOrders } := by
  obtain ⟨s₁, h1, rfl⟩ := addOrder_eq_ok h
  have hput : ∃ orders, s.putRecord o = { s with orders } := by
    unfold putRecord
    split <;> exact ⟨_, rfl⟩
  obtain ⟨orders, hput⟩ := hput
  rw [hput] at h1
  unfold insertInBook at h1
  split at h1
  · obtain rfl := pure_inv h1
    exact ⟨_, _, _, rfl⟩
  · obtain ⟨b, -, h1⟩ := bind_inv h1
    obtain rfl := pure_inv h1
    exact ⟨_, _, _, rfl⟩

theorem removeOrder_of_some {os : FinMap OrderId Order} (h : s.getOrder m id = some o)
    (hos : s.orders[m]? = some os) :
    s.removeOrder m id =
      ((s.setOrders m (os.erase id)).removeFromBook m id).removeFromIds o.owner m id := by
  unfold removeOrder
  rw [h, hos]
  rfl

theorem maps_addOrder (h : s.addOrder o = .ok s') :
    s.maps.addOrder o = .ok s'.maps ∧ s'.markets = s.markets := by
  obtain ⟨s₁, h1, rfl⟩ := addOrder_eq_ok h
  have hput : (s.putRecord o).maps = s.maps.putRecord o.marketId o ∧
      (s.putRecord o).markets = s.markets := by
    unfold putRecord OrderMaps.putRecord
    rw [maps_orders]
    cases s.orders[o.marketId]? <;> exact ⟨rfl, rfl⟩
  unfold OrderMaps.addOrder OrderMaps.insertInBook
  rw [← hput.1, ← hput.2, maps_orderbooks]
  generalize s.putRecord o = s₀ at h1 ⊢
  unfold insertInBook at h1
  cases hm : s₀.orderbooks[o.marketId]? with
  | none =>
    simp only [hm] at h1
    obtain rfl := pure_inv h1
    exact ⟨rfl, rfl⟩
  | some b =>
    simp only [hm] at h1
    obtain ⟨b', hb', h1⟩ := bind_inv h1
    obtain rfl := pure_inv h1
    exact ⟨bind_eq_ok.mpr ⟨b', hb', rfl⟩, rfl⟩

theorem addOrder_kept (h : s.addOrder o = .ok s') : Kept s s' :=
  .of_maps (.addOrder (maps_addOrder h).1) (maps_addOrder h).2

theorem maps_removeOrder (s : SpotEngineState) (m : SpotMarketId) (id : OrderId) :
    (s.removeOrder m id).maps = s.maps.removeOrder m id ∧
      (s.removeOrder m id).markets = s.markets := by
  unfold OrderMaps.removeOrder
  rw [maps_getOrder]
  cases ho : s.getOrder m id with
  | none =>
    unfold SpotEngineState.removeOrder
    rw [ho]
    exact ⟨rfl, rfl⟩
  | some o =>
    obtain ⟨os, hos, -⟩ := Option.bind_eq_some_iff.mp ho
    have hbook (t : SpotEngineState) : (t.removeFromBook m id).maps = t.maps.removeFromBook m id ∧
        (t.removeFromBook m id).markets = t.markets := by
      unfold removeFromBook OrderMaps.removeFromBook
      rw [maps_orderbooks]
      cases t.orderbooks[m]? <;> exact ⟨rfl, rfl⟩
    have hids (t : SpotEngineState) : (t.removeFromIds o.owner m id).maps = t.maps ∧
        (t.removeFromIds o.owner m id).markets = t.markets := by
      unfold removeFromIds
      split <;> exact ⟨rfl, rfl⟩
    have herase : s.maps.eraseRecord m id = (s.setOrders m (os.erase id)).maps := by
      unfold OrderMaps.eraseRecord
      rw [maps_orders, hos]
      rfl
    rw [removeOrder_of_some ho hos]
    dsimp only
    rw [(hids _).1, (hids _).2, (hbook _).1, (hbook _).2, herase]
    exact ⟨rfl, rfl⟩

theorem removeOrder_kept (s : SpotEngineState) (m : SpotMarketId) (id : OrderId) :
    Kept s (s.removeOrder m id) := by
  obtain ⟨hmaps, hmarkets⟩ := maps_removeOrder s m id
  refine .of_maps ?_ hmarkets
  rw [hmaps]
  exact .removeOrder _ m id

theorem maps_updateOrderRemaining (s : SpotEngineState) (m : SpotMarketId) (id : OrderId)
    (r : Decimal) : (s.updateOrderRemaining m id r).maps = s.maps.restateRecord m id r ∧
      (s.updateOrderRemaining m id r).markets = s.markets := by
  unfold SpotEngineState.updateOrderRemaining OrderMaps.restateRecord SpotEngineState.getOrder
  rw [maps_orders]
  cases hos : s.orders[m]? with
  | none => exact ⟨rfl, rfl⟩
  | some os =>
    rw [Option.bind_some]
    dsimp only
    cases os[id]? <;> exact ⟨rfl, rfl⟩

theorem updateOrderRemaining_kept (s : SpotEngineState) (m : SpotMarketId) (id : OrderId)
    (r : Decimal) : Kept s (s.updateOrderRemaining m id r) := by
  obtain ⟨hmaps, hmarkets⟩ := maps_updateOrderRemaining s m id r
  refine .of_maps ?_ hmarkets
  rw [hmaps]
  exact .restateRecord _ m id r

theorem Kept.foldl {ι : Type} {f : SpotEngineState → ι → SpotEngineState}
    (hf : ∀ s i, Kept s (f s i)) (is : List ι) (s : SpotEngineState) : Kept s (is.foldl f s) := by
  induction is generalizing s with
  | nil => exact .refl s
  | cons i is ih => exact (hf s i).trans (ih _)

theorem syncMakers_kept (s : SpotEngineState) (m : SpotMarketId) (x : Matched) :
    Kept s (s.syncMakers m x) :=
  (Kept.foldl (fun s id => removeOrder_kept s m id) _ s).trans
    (Kept.foldl (fun s (p : OrderId × Decimal) => updateOrderRemaining_kept s m p.1 p.2) _ _)

end Orders

/-! ### Matching -/

section Matching

variable {m : SpotMarketId} {config : SpotMarketConfig}
variable {maker : Order}

/-- A turn takes the maker off the book, or puts back what is left of it. -/
theorem matchOne_book {x x' : Matched} (h : matchOne m config x maker = .ok x') :
    x'.book = (x.book.remove maker.id).2 ∨
      ∃ remainingSize, (x.book.remove maker.id).2.insert { maker with remainingSize } =
        .ok x'.book := by
  obtain ⟨_, -, h⟩ := bind_inv h
  obtain ⟨_, -, h⟩ := bind_inv h
  obtain ⟨_, -, h⟩ := bind_inv h
  obtain ⟨_, -, h⟩ := bind_inv h
  dsimp only at h
  split at h
  · obtain rfl := pure_inv h
    exact .inl rfl
  · obtain ⟨left, -, h⟩ := bind_inv h
    split at h
    · obtain rfl := pure_inv h
      exact .inl rfl
    · obtain ⟨book, hbook, h⟩ := bind_inv h
      obtain rfl := pure_inv h
      exact .inr ⟨left, hbook⟩

theorem matchOne_caches {x x' : Matched} (hx : x.book.CachesRight)
    (h : matchOne m config x maker = .ok x') : x'.book.CachesRight := by
  rcases matchOne_book h with hbook | ⟨r, hbook⟩
  · rw [hbook]
    exact hx.remove _
  · exact (hx.remove _).insert hbook

/-- **Rule of the loop.** The loop keeps what a turn keeps, made while the order is open and
against the best order of the other side. -/
theorem matchOrder_rule {fuel : Nat} {x x' : Matched} {P : Matched → Prop}
    (hturn : ∀ {x maker x'}, P x → x.remaining.isFilled = false →
      x.book.best (opposite x.remaining.side) = some maker →
      matchOne m config x maker = .ok x' → P x')
    (hx : P x) (h : matchOrder m config fuel x = .ok x') : P x' := by
  induction fuel generalizing x with
  | zero => cases h
  | succ fuel ih =>
    unfold matchOrder at h
    split at h
    · obtain rfl := pure_inv h
      exact hx
    · rename_i hopen
      cases hbest : x.book.best (opposite x.remaining.side) with
      | none =>
        simp only [hbest] at h
        obtain rfl := pure_inv h
        exact hx
      | some maker =>
        simp only [hbest] at h
        split at h
        · obtain ⟨x₁, h1, h⟩ := bind_inv h
          exact ih (hturn hx (Bool.eq_false_iff.mpr hopen) hbest h1) h
        · obtain rfl := pure_inv h
          exact hx

theorem matchOrder_caches {fuel : Nat} {x x' : Matched} (hx : x.book.CachesRight)
    (h : matchOrder m config fuel x = .ok x') : x'.book.CachesRight :=
  matchOrder_rule (P := fun x => x.book.CachesRight)
    (fun hx _ _ hone => matchOne_caches hx hone) hx h

end Matching

/-! ### Fills -/

section Fills

variable {s s' : SpotEngineState} {config : SpotMarketConfig}

theorem modifyMarket_trades {m : SpotMarketId} {f : SpotMarketState → Exec SpotMarketState}
    (h : s.modifyMarket m f = .ok s') : TradesOnly s s' := by
  unfold modifyMarket at h
  cases hm : s.markets[m]? with
  | none =>
    simp only [hm] at h
    obtain rfl := pure_inv h
    exact (BalancesOnly.refl s).trades
  | some market =>
    simp only [hm] at h
    obtain ⟨state, -, h⟩ := bind_inv h
    obtain rfl := pure_inv h
    exact ⟨_, _, _, rfl, fun k => FinMap.isSome_insert hm k _⟩

theorem applyFill_trades {fill : SpotFill} {r : Except Error Unit}
    (h : s.applyFill config fill = .ok (r, s')) : TradesOnly s s' := by
  obtain ⟨l, -, h⟩ := bind_inv h
  obtain ⟨s₁, h1, h⟩ := bind_inv h
  obtain ⟨s₂, h2, h⟩ := bind_inv h
  obtain ⟨⟨paid, s₃⟩, h3, h⟩ := bind_inv h
  have hpaid : BalancesOnly s s₃ :=
    ((releaseBalance_only h1).trans (releaseBalance_only h2)).trans (debitBalance_only h3)
  dsimp only at h
  split at h
  · obtain ⟨-, rfl⟩ := pair_inv h
    exact hpaid.trades
  · obtain ⟨s₄, h4, h⟩ := bind_inv h
    obtain ⟨x, -, h⟩ := bind_inv h
    obtain ⟨⟨delivered, s₅⟩, h5, h⟩ := bind_inv h
    have hdelivered : BalancesOnly s s₅ :=
      (hpaid.trans (creditBalance_only h4)).trans (debitBalance_only h5)
    dsimp only at h
    split at h
    · obtain ⟨-, rfl⟩ := pair_inv h
      exact hdelivered.trades
    · obtain ⟨s₆, h6, h⟩ := bind_inv h
      obtain ⟨s₇, h7, h⟩ := bind_inv h
      obtain ⟨-, rfl⟩ := pair_inv h
      exact (hdelivered.trans (creditBalance_only h6)).trades.trans (modifyMarket_trades h7)

variable {fills : List SpotFill}

theorem applyFills_trades {r : Except Error Unit} (h : applyFills config fills s = .ok (r, s')) :
    TradesOnly s s' := by
  induction fills generalizing s with
  | nil =>
    obtain ⟨-, rfl⟩ := pair_inv h
    exact (BalancesOnly.refl s).trades
  | cons fill fills ih =>
    obtain ⟨⟨r₁, s₁⟩, h1, h⟩ := bind_inv h
    cases r₁ with
    | error err =>
      obtain ⟨-, rfl⟩ := pair_inv h
      exact applyFill_trades h1
    | ok u => exact (applyFill_trades h1).trans (ih h)

variable {reserve : Decimal}

/-- The remainder of an order rests, or only balances change. -/
theorem settleRemaining_cases {o : Order} {token : TokenIndex}
    (h : s.settleRemaining o token reserve fills = .ok s') :
    (o.isFilled = false ∧ o.shouldRest = true ∧ s.addOrder o = .ok s') ∨
      ((o.isFilled = true ∨ o.shouldRest = false) ∧ BalancesOnly s s') := by
  obtain ⟨filled, -, h⟩ := bind_inv h
  obtain ⟨left, -, h⟩ := bind_inv h
  split at h
  · rename_i hrest
    simp only [Bool.and_eq_true, Bool.not_eq_true'] at hrest
    exact .inl ⟨hrest.1, hrest.2, h⟩
  · rename_i hrest
    have hkind : o.isFilled = true ∨ o.shouldRest = false := by
      cases hf : o.isFilled <;> cases hr : o.shouldRest <;> simp_all
    split at h
    · exact .inr ⟨hkind, releaseBalance_only h⟩
    · obtain rfl := pure_inv h
      exact .inr ⟨hkind, .refl s⟩

theorem settleRemaining_kept {o : Order} {k : TokenIndex}
    (h : s.settleRemaining o k reserve fills = .ok s') : Kept s s' := by
  rcases settleRemaining_cases h with ⟨-, -, hadd⟩ | ⟨-, honly⟩
  · exact addOrder_kept hadd
  · exact honly.kept

end Fills

/-! ### Calls -/

section Calls

variable {s s' : SpotEngineState} {a : AccountAddress} {m : SpotMarketId}

/-- The engine when the fills of an order are applied. -/
structure Executed (s : SpotEngineState) (m : SpotMarketId) (market : SpotMarket) (o : Order)
    (book : OrderBook) (x : Matched) (paid : Except Error Unit) (s₁ : SpotEngineState) : Prop where
  book_eq : s.orderbooks[m]? = some book
  loop : matchOrder m market.config (turns o book) ⟨o, book, [], [], []⟩ = .ok x
  applied : applyFills market.config x.fills (syncMakers (s.setOrderbook m x.book) m x) =
    .ok (paid, s₁)

variable {market : SpotMarket} {o : Order} {r : Except Error (Order × List SpotFill)}
variable {book : OrderBook} {paid : Except Error Unit} {s₁ : SpotEngineState} {reserve : Decimal}
  {q : OrderRequest} {toEvm : Bool}

theorem Executed.trades {x : Matched} (h : Executed s m market o book x paid s₁) :
    TradesOnly (syncMakers (s.setOrderbook m x.book) m x) s₁ := applyFills_trades h.applied

theorem executeOrder_cases {token : TokenIndex}
    (h : s.executeOrder m market o token reserve = .ok (r, s')) :
    (s' = s ∧ ∃ err, r = .error err) ∨ ∃ book x paid s₁,
      Executed s m market o book x paid s₁ ∧
      ((s' = s₁ ∧ ∃ err, r = .error err) ∨ (paid = .ok () ∧ r = .ok (x.remaining, x.fills) ∧
        s₁.settleRemaining x.remaining token reserve x.fills = .ok s')) := by
  unfold executeOrder at h
  cases hb : s.orderbooks[m]? with
  | none =>
    simp only [hb] at h
    obtain ⟨rfl, rfl⟩ := pair_inv h
    exact .inl ⟨rfl, _, rfl⟩
  | some book =>
    simp only [hb] at h
    obtain ⟨x, hx, h⟩ := bind_inv h
    obtain ⟨⟨r₁, s₁⟩, h1, h⟩ := bind_inv h
    refine .inr ⟨book, x, r₁, s₁, ⟨hb, hx, h1⟩, ?_⟩
    cases r₁ with
    | error err =>
      obtain ⟨rfl, rfl⟩ := pair_inv h
      exact .inl ⟨rfl, err, rfl⟩
    | ok u =>
      obtain ⟨s₂, h2, h⟩ := bind_inv h
      obtain ⟨rfl, rfl⟩ := pair_inv h
      exact .inr ⟨rfl, rfl, h2⟩

theorem Executed.kept {x : Matched} (h : Executed s m market o book x paid s₁) : Kept s s₁ := by
  have hbook : Kept s (s.setOrderbook m x.book) :=
    .of_maps (.setBook h.book_eq fun hb => matchOrder_caches hb h.loop) rfl
  exact (hbook.trans (syncMakers_kept _ m x)).trans h.trades.kept

theorem executeOrder_kept {k : TokenIndex} (h : s.executeOrder m market o k reserve = .ok (r, s')) :
    Kept s s' := by
  rcases executeOrder_cases h with ⟨rfl, -⟩ | ⟨book, x, paid, s₁, hexec, hend⟩
  · exact .refl s'
  · rcases hend with ⟨rfl, -⟩ | ⟨-, -, hsettle⟩
    · exact hexec.kept
    · exact hexec.kept.trans (settleRemaining_kept hsettle)

/-- A refused order changes reserves at most, or a valid order is executed with the next id. -/
theorem placeOrder_cases {time : Timestamp} (h : s.placeOrder a m q time = .ok (r, s')) :
    (s' = s ∧ ∃ err, r = .error err) ∨
      ∃ (s₁ : SpotEngineState) (market : SpotMarket) (token : TokenIndex) (reserve : Decimal),
        s.getMarket m = some market ∧ validateOrder q market.config = .ok (.ok ()) ∧
        reserveFor market.config q.side q.size q.price = .ok (token, reserve) ∧
        s.reserveBalance a token reserve = .ok (true, s₁) ∧
        { s₁ with nextOrderId := s.nextOrderId + 1 }.executeOrder m market
          (.new s.nextOrderId a q time) token reserve = .ok (r, s') := by
  have hrefused : ∀ {err : Error}, (Except.error err, s) = (r, s') →
      s' = s ∧ ∃ err, r = .error err := by
    intro err heq
    obtain ⟨rfl, rfl⟩ := Prod.mk.inj heq
    exact ⟨rfl, err, rfl⟩
  unfold placeOrder at h
  split at h
  · exact .inl (hrefused (pure_inv h))
  · rename_i market hmarket
    split at h
    · exact .inl (hrefused (pure_inv h))
    · obtain ⟨checked, hvalid, h⟩ := bind_inv h
      cases checked with
      | error err => exact .inl (hrefused (pure_inv h))
      | ok u =>
        obtain ⟨⟨token, reserve⟩, hreserve, h⟩ := bind_inv h
        obtain ⟨available, -, h⟩ := bind_inv h
        dsimp only at h
        split at h
        · exact .inl (hrefused (pure_inv h))
        · obtain ⟨⟨reserved, s₁⟩, h1, h⟩ := bind_inv h
          cases reserved with
          | false =>
            obtain ⟨rfl, rfl⟩ := pair_inv h
            exact .inl ⟨reserveBalance_refused h1, _, rfl⟩
          | true =>
            obtain ⟨⟨id, s₂⟩, h2, h⟩ := bind_inv h
            obtain ⟨next, hnext, h2⟩ := bind_inv h2
            obtain ⟨rfl, rfl⟩ := pair_inv h2
            obtain ⟨-, rfl⟩ := u64_eq_ok.mp hnext
            rw [(reserveBalance_only h1).trades.nextOrderId] at h
            exact .inr ⟨s₁, market, token, reserve, hmarket, hvalid, hreserve, h1, h⟩

theorem placeOrder_kept {t : Timestamp} (h : s.placeOrder a m q t = .ok (r, s')) :
    Kept s s' := by
  rcases placeOrder_cases h with ⟨rfl, -⟩ | ⟨s₁, market, token, reserve, -, -, -, h1, hexec⟩
  · exact (BalancesOnly.refl _).kept
  · have hid : Kept s₁ { s₁ with nextOrderId := s.nextOrderId + 1 } := ⟨.refl _, fun _ => rfl⟩
    exact ((reserveBalance_only h1).kept.trans hid).trans (executeOrder_kept hexec)

/-- A cancelled order is its owner's; its reserve is released before it goes. -/
theorem cancelOrder_cases {id : OrderId} {r : Except Error Order}
    (h : s.cancelOrder a m id = .ok (r, s')) : (s' = s ∧ ∃ err, r = .error err) ∨
      ∃ o s₁, s.getOrder m id = some o ∧ o.owner = a ∧ r = .ok o.cancel ∧
        BalancesOnly s s₁ ∧ s' = s₁.removeOrder m id := by
  have hrefused : ∀ {err : Error}, (Except.error err, s) = (r, s') →
      s' = s ∧ ∃ err, r = .error err := by
    intro err heq
    obtain ⟨rfl, rfl⟩ := Prod.mk.inj heq
    exact ⟨rfl, err, rfl⟩
  unfold cancelOrder at h
  cases ho : s.getOrder m id with
  | none =>
    simp only [ho] at h
    exact .inl (hrefused (pure_inv h))
  | some o =>
    simp only [ho] at h
    split at h
    · exact .inl (hrefused (pure_inv h))
    · rename_i hown
      split at h
      · exact .inl (hrefused (pure_inv h))
      · obtain ⟨⟨k, amount⟩, -, h⟩ := bind_inv h
        obtain ⟨s₁, h1, h⟩ := bind_inv h
        obtain ⟨rfl, rfl⟩ := pair_inv h
        exact .inr ⟨o, s₁, rfl, not_not.mp hown, rfl, releaseBalance_only h1, rfl⟩

theorem cancelOrder_kept {id : OrderId} {r : Except Error Order}
    (h : s.cancelOrder a m id = .ok (r, s')) : Kept s s' := by
  rcases cancelOrder_cases h with ⟨rfl, -⟩ | ⟨o, s₁, -, -, -, honly, rfl⟩
  · exact .refl s'
  · exact honly.kept.trans (removeOrder_kept s₁ m id)

/-- **Rule of the cancellations.** A list of cancellations keeps what one keeps. -/
theorem cancelOrders_rule {os canceled : List Order} {P : SpotEngineState → Prop}
    (hone : ∀ {s id r s'}, P s → s.cancelOrder a m id = .ok (r, s') → P s')
    (hs : P s) (h : cancelOrders a m os s = .ok (canceled, s')) : P s' := by
  induction os generalizing s canceled with
  | nil =>
    obtain ⟨-, rfl⟩ := pair_inv h
    exact hs
  | cons o os ih =>
    obtain ⟨⟨r, s₁⟩, h1, h⟩ := bind_inv h
    obtain ⟨⟨rest, s₂⟩, h2, h⟩ := bind_inv h
    obtain rfl : s₂ = s' := by cases r <;> exact (pair_inv h).2
    exact ih (hone hs h1) h2

theorem cancelOrders_kept {os : List Order} {canceled : List Order}
    (h : cancelOrders a m os s = .ok (canceled, s')) : Kept s s' :=
  cancelOrders_rule (P := Kept s) (fun hs hone => hs.trans (cancelOrder_kept hone)) (.refl s) h

/-- A transfer between views writes the balance sheet alone. -/
theorem viewTransfer_sheet {k : TokenIndex} {x : Decimal} {r : Except Error Unit}
    (h : s.viewTransfer a k x toEvm = .ok (r, s')) :
    s' = { s with unifiedState := s'.unifiedState } := by
  unfold viewTransfer at h
  split at h
  · obtain ⟨available, -, h⟩ := bind_inv h
    split at h
    · obtain ⟨-, rfl⟩ := pair_inv h
      rfl
    · obtain ⟨⟨r₁, u⟩, -, h⟩ := bind_inv h
      obtain ⟨-, rfl⟩ := pair_inv h
      rfl
  · obtain ⟨⟨r₁, u⟩, -, h⟩ := bind_inv h
    obtain ⟨-, rfl⟩ := pair_inv h
    rfl

theorem viewTransfer_only {k : TokenIndex} {x : Decimal} {r : Except Error Unit}
    (h : s.viewTransfer a k x toEvm = .ok (r, s')) : BalancesOnly s s' :=
  ⟨s'.unifiedState, s.reserved, viewTransfer_sheet h⟩

end Calls

/-! ### Genesis -/

theorem Housed.withUnifiedState (u : UnifiedState) : Housed (.withUnifiedState u) :=
  ⟨.empty, fun _ => rfl⟩

variable {params : SpotTokenDeployParams}

/-- A deployment credits the supply of the next token and opens the next market. -/
theorem deployToken_cases {s s' : SpotEngineState} {a : AccountAddress} {r : Except Error SpotToken}
    (h : s.deployToken params a = .ok (r, s')) :
    (s' = s ∧ ∃ err, r = .error err) ∨
      ∃ (token : SpotToken) (next : TokenIndex) (s₁ : SpotEngineState)
        (nextMarketId : SpotMarketId) (config : SpotMarketConfig),
        r = .ok token ∧ token.index = s.nextTokenIndex ∧
        u8 (s.nextTokenIndex.toNat + 1) = .ok next ∧
        BalancesOnly { s with nextTokenIndex := next } s₁ ∧
        u8 (s₁.nextMarketId.toNat + 1) = .ok nextMarketId ∧
        SpotMarketConfig.newUsdcPair token s₁.nextMarketId = .ok config ∧
        s' = { s₁ with
          tokens := s₁.tokens.insert token.index token
          markets := s₁.markets.insert s₁.nextMarketId (.new config)
          orderbooks := s₁.orderbooks.insert s₁.nextMarketId .new
          orders := s₁.orders.insert s₁.nextMarketId ∅
          nextMarketId } := by
  unfold deployToken at h
  split at h
  · obtain ⟨rfl, rfl⟩ := pair_inv h
    exact .inl ⟨rfl, _, rfl⟩
  · obtain ⟨needed, -, h⟩ := bind_inv h
    split at h
    · obtain ⟨rfl, rfl⟩ := pair_inv h
      exact .inl ⟨rfl, _, rfl⟩
    · obtain ⟨next, hnext, h⟩ := bind_inv h
      obtain ⟨s₁, h1, h⟩ := bind_inv h
      obtain ⟨nextMarketId, hmarket, h⟩ := bind_inv h
      obtain ⟨config, hconfig, h⟩ := bind_inv h
      obtain ⟨rfl, rfl⟩ := pair_inv h
      have hcredited : BalancesOnly { s with nextTokenIndex := next } s₁ :=
        foldlM_rel (R := BalancesOnly) h1 .refl (fun _ _ _ => .trans)
          fun _ _ _ _ hc => creditBalance_only hc
      exact .inr ⟨_, next, s₁, nextMarketId, config, rfl, rfl, hnext, hcredited, hmarket,
        hconfig, rfl⟩

/-- A deployed token comes with its market, and a book for it. -/
theorem Housed.deployToken {s s' : SpotEngineState} {a : AccountAddress}
    {r : Except Error SpotToken} (hs : s.Housed) (h : s.deployToken params a = .ok (r, s')) :
    s'.Housed := by
  rcases deployToken_cases h with
    ⟨rfl, -⟩ | ⟨token, next, s₁, nextMarketId, config, -, -, -, hcredited, -, -, rfl⟩
  · exact hs
  · have hs₁ : s₁.Housed := hcredited.kept.housed ⟨hs.filed, hs.listed⟩
    refine ⟨hs₁.filed.addMarket _, fun m => ?_⟩
    show ((s₁.orderbooks.insert _ _)[m]?).isSome = ((s₁.markets.insert _ _)[m]?).isSome
    simp only [FinMap.get_insert]
    split
    · rfl
    · exact hs₁.listed m

end SpotEngineState

end Hypercore
