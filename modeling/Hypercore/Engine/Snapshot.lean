import Hypercore.Engine.Alike
import Hypercore.Engine.Filing
/-!
# Hypercore.Engine.Snapshot

Snapshots of the engine state, taken for re-orgs.

A snapshot lists the entries of the maps in the order in which the hash maps are
visited; books, account index and trigger index are not in it. `restore` clears the
state and adds markets, orders and trigger orders again, so a book comes back with the
orders of the *orders map* and an account's list in the order of the snapshot.

**What comes back.** `Rests s os` says that the three places of `s` hold exactly the
orders `os`, the account lists in that order. The order loop of `restore` builds such a
state (`Rests.addOrders`), and two states with the same one differ in nothing
(`Rests.unique`).
-/

namespace Hypercore

open Exec Int128

/-- Snapshot of the engine state. -/
structure EngineStateSnapshot where
  accounts : List (AccountAddress × AccountState)
  positions : List (AccountAddress × MarketId × Position)
  leverage : List (AccountAddress × MarketId × UInt8)
  markets : List Market
  orders : List Order
  insuranceFund : Int
  nextOrderId : OrderId
  marginModes : List (AccountAddress × MarginMode)
  triggerOrders : List Order

namespace EngineState

/-- The trigger orders of one direction: markets in hash order, then prices ascending. -/
def listTriggers (ord : HashOrder) (s : EngineState) (d : TriggerDirection) : List Order :=
  (ord.visit (s.triggers d).toList).flatMap fun p => p.2.toList.flatMap (·.2)

/-- Create a snapshot of the current state for re-org handling. -/
def snapshot (ord : HashOrder) (s : EngineState) : EngineStateSnapshot where
  accounts := ord.visit s.accounts.toList
  positions := ord.entries s.positions
  leverage := ord.entries s.leverage
  markets := (ord.visit s.markets.toList).map (·.2)
  orders := (ord.entries s.orders).map (·.2.2)
  insuranceFund := s.insuranceFund
  nextOrderId := s.nextOrderId
  marginModes := ord.visit s.marginMode.toList
  triggerOrders := s.listTriggers ord .above ++ s.listTriggers ord .below

/-- Everything is cleared but the histories. -/
def clear (s : EngineState) : EngineState :=
  { s with
    accounts := ∅
    positions := ∅
    leverage := ∅
    markets := ∅
    orderbooks := ∅
    orders := ∅
    accountOrders := ∅
    marginMode := ∅
    triggerOrdersAbove := ∅
    triggerOrdersBelow := ∅
    triggerOrderIndex := ∅ }

/-- Restore the state from a snapshot in place. -/
def restore (s : EngineState) (snapshot : EngineStateSnapshot) : Exec EngineState := do
  let s := s.clear
  let s := { s with
    accounts := s.accounts.insertAll snapshot.accounts
    positions := s.positions.insertAllIn snapshot.positions
    leverage := s.leverage.insertAllIn snapshot.leverage }
  let s := snapshot.markets.foldl addMarket s
  let s ← snapshot.orders.foldlM addOrder s
  let s := { s with marginMode := s.marginMode.insertAll snapshot.marginModes }
  let s := snapshot.triggerOrders.foldl addTriggerOrder s
  return { s with insuranceFund := snapshot.insuranceFund, nextOrderId := snapshot.nextOrderId }

/-! ### Markets -/

/-- Adding markets writes the three maps by market. -/
theorem addMarkets_only (ms : List Market) (s : EngineState) :
    ∃ markets orderbooks orders, ms.foldl addMarket s = { s with markets, orderbooks, orders } := by
  induction ms generalizing s with
  | nil => exact ⟨_, _, _, rfl⟩
  | cons m ms ih =>
    obtain ⟨markets, orderbooks, orders, h⟩ := ih (s.addMarket m)
    exact ⟨markets, orderbooks, orders, h⟩

/-- Markets that are added to an empty state have an empty book and no orders. -/
theorem addMarkets_spec {l : List Market} {s : EngineState} (hm : s.markets = ∅)
    (hb : s.orderbooks = ∅) (ho : s.orders = ∅)
    (hid : ∀ market ∈ l, ∀ market' ∈ l, market.id = market'.id → market = market') :
    let s' := l.foldl addMarket s
    (∀ (k : MarketId) (market : Market),
      s'.markets[k]? = some market ↔ market ∈ l ∧ market.id = k) ∧
      (∀ (k : MarketId) (b : OrderBook), s'.orderbooks[k]? = some b ↔
        b = .new ∧ ∃ market ∈ l, market.id = k) ∧
      ∀ (k : MarketId) (os : FinMap OrderId Order), s'.orders[k]? = some os ↔
        os = ∅ ∧ ∃ market ∈ l, market.id = k := by
  refine ⟨fun k market => ?_, fun k b => ?_, fun k os => ?_⟩
  · refine (FinMap.get_foldl_put (fun (s : EngineState) k => s.markets[k]?)
      (fun s market k => FinMap.get_insert s.markets market.id k market) (fun k => by simp [hm])
      hid k market).trans ?_
    exact ⟨fun ⟨i, hi, hk, he⟩ => he ▸ ⟨hi, hk⟩, fun ⟨h, hk⟩ => ⟨market, h, hk, rfl⟩⟩
  · refine (FinMap.get_foldl_put (fun (s : EngineState) k => s.orderbooks[k]?)
      (fun s market k => FinMap.get_insert s.orderbooks market.id k .new) (fun k => by simp [hb])
      (fun _ _ _ _ _ => rfl) k b).trans ?_
    exact ⟨fun ⟨i, hi, hk, he⟩ => ⟨he.symm, i, hi, hk⟩, fun ⟨he, i, hi, hk⟩ => ⟨i, hi, hk, he.symm⟩⟩
  · refine (FinMap.get_foldl_put (fun (s : EngineState) k => s.orders[k]?)
      (fun s market k => FinMap.get_insert s.orders market.id k ∅) (fun k => by simp [ho])
      (fun _ _ _ _ _ => rfl) k os).trans ?_
    exact ⟨fun ⟨i, hi, hk, he⟩ => ⟨he.symm, i, hi, hk⟩, fun ⟨he, i, hi, hk⟩ => ⟨i, hi, hk, he.symm⟩⟩

/-! ### Orders -/

/-- The orders of a list in one market. -/
def inMarket (m : MarketId) (os : List Order) : List Order := os.filter (·.marketId = m)

/-- The three places hold exactly the orders of a list, the account index in its order. -/
structure Rests (s : EngineState) (os : List Order) : Prop where
  record : ∀ m id o, s.getOrder m id = some o ↔ o ∈ inMarket m os ∧ o.id = id
  books : ∀ (m : MarketId) (b : OrderBook), s.orderbooks[m]? = some b → b.Holds (inMarket m os)
  lists : ∀ a m, s.orderIds a m = ((inMarket m os).filter (·.owner = a)).map (·.id)

theorem inMarket_append (m : MarketId) (os : List Order) (o : Order) :
    inMarket m (os ++ [o]) = inMarket m os ++ if o.marketId = m then [o] else [] := by
  unfold inMarket
  rw [List.filter_append]
  by_cases hm : o.marketId = m <;> simp [hm]

theorem mem_inMarket {m : MarketId} {os : List Order} {o : Order} :
    o ∈ inMarket m os ↔ o ∈ os ∧ o.marketId = m := by
  unfold inMarket
  rw [List.mem_filter, decide_eq_true_eq]

/-- Adding an order with a key and a new id to a market that is there. -/
theorem Rests.addOrder {s : EngineState} {os : List Order} {o : Order} (h : s.Rests os)
    (hs : s.Filed) (hlisted : (s.orderbooks[o.marketId]?).isSome) (hkey : o.key = .ok o.rawKey)
    (hnew : ∀ o' ∈ inMarket o.marketId os, o'.id ≠ o.id) :
    ∃ s', s.addOrder o = .ok s' ∧ s'.Rests (os ++ [o]) := by
  obtain ⟨b, hm⟩ := Option.isSome_iff_exists.mp hlisted
  obtain ⟨b', hb', hrests⟩ := (h.books _ b hm).insert hkey hnew
  have hos : (s.orders[o.marketId]?).isSome := (hs.both _).trans hlisted
  obtain ⟨orders, hput⟩ : ∃ orders, s.putRecord o.marketId o = { s with orders } := by
    unfold putRecord
    split
    · exact ⟨s.orders, rfl⟩
    · exact ⟨_, rfl⟩
  have hget := fun k i => getOrder_putRecord s o.marketId k i o
  have hlist := fun a k => orderIds_setOrderIds s o.marketId k o.owner a
  refine ⟨(({ s with orders } : EngineState).setOrderbook o.marketId b').setOrderIds o.owner
    o.marketId (s.orderIds o.owner o.marketId ++ [o.id]), ?_, fun m id o' => ?_, fun m c hc => ?_,
    fun a m => ?_⟩
  · simp only [EngineState.addOrder, hput, insertInBook, hm, hb']
    rfl
  · rw [hput] at hget
    refine (Iff.of_eq (congrArg (· = some o') (hget m id))).trans ?_
    rw [inMarket_append, List.mem_append]
    by_cases hmk : o.marketId = m
    · subst hmk
      rw [if_pos rfl, List.mem_singleton]
      by_cases hid : o.id = id
      · rw [if_pos ⟨rfl, hid, hos⟩]
        constructor
        · intro he
          obtain rfl := Option.some.inj he
          exact ⟨.inr rfl, hid⟩
        · rintro ⟨ho' | rfl, hid'⟩
          · exact absurd (hid'.trans hid.symm) (hnew o' ho')
          · rfl
      · rw [if_neg (fun h => hid h.2.1), h.record]
        constructor
        · rintro ⟨ho', h2⟩
          exact ⟨.inl ho', h2⟩
        · rintro ⟨ho' | rfl, h2⟩
          · exact ⟨ho', h2⟩
          · exact absurd h2 hid
    · rw [if_neg (fun h => hmk h.1), if_neg hmk, h.record]
      simp
  · rw [inMarket_append]
    change (s.orderbooks.insert o.marketId b')[m]? = some c at hc
    rw [FinMap.get_insert] at hc
    split at hc
    · rename_i hmk
      obtain rfl := Option.some.inj hc
      subst hmk
      rw [if_pos rfl]
      exact hrests
    · rename_i hmk
      rw [if_neg hmk, List.append_nil]
      exact h.books m c hc
  · refine (hlist a m _).trans ?_
    rw [inMarket_append, List.filter_append, List.map_append, h.lists, h.lists]
    by_cases hmk : o.marketId = m
    · subst hmk
      by_cases ha : o.owner = a
      · subst ha
        simp
      · simp [ha]
    · simp [hmk]

/-- **The order loop of a restore.** Orders with keys and ids of their own, of markets that
are there, come to rest in the three places. -/
theorem Rests.addOrders {l os : List Order} {s : EngineState} (h : s.Rests os) (hs : s.Filed)
    (hl : ∀ o ∈ l, (s.orderbooks[o.marketId]?).isSome ∧ o.key = .ok o.rawKey)
    (hnew : (os ++ l).Pairwise fun o o' => o.marketId = o'.marketId → o.id ≠ o'.id) :
    ∃ s', l.foldlM EngineState.addOrder s = .ok s' ∧ s'.Rests (os ++ l) ∧
      OrderMaps.FilingKept s.maps s'.maps ∧ OrdersOnly s s' := by
  induction l generalizing s os with
  | nil => exact ⟨s, rfl, by simpa using h, .refl _, .refl s⟩
  | cons o l ih =>
    obtain ⟨hlisted, hkey⟩ := hl o (.head _)
    have hfirst : ∀ o' ∈ inMarket o.marketId os, o'.id ≠ o.id := by
      intro o' ho'
      obtain ⟨hmem, hmk⟩ := mem_inMarket.mp ho'
      exact (List.pairwise_append.mp hnew).2.2 o' hmem o (.head _) hmk
    obtain ⟨s₁, h1, hr₁⟩ := h.addOrder hs hlisted hkey hfirst
    have hkept := filing_addOrder h1
    have happend : os ++ o :: l = (os ++ [o]) ++ l := by simp
    obtain ⟨s₂, h2, hr₂, hkept₂, honly₂⟩ := ih hr₁ (hkept.filed hs)
      (fun o' ho' => ⟨(hkept.books _).trans (hl o' (.tail _ ho')).1, (hl o' (.tail _ ho')).2⟩)
      (by rw [← happend]; exact hnew)
    refine ⟨s₂, ?_, by rw [happend]; exact hr₂, hkept.trans hkept₂, (addOrder_only h1).trans honly₂⟩
    rw [List.foldlM_cons, h1]
    exact h2

/-! ### Trigger orders -/

/-- The trigger orders of a list that are filed under a direction, a market and a price. -/
def filedAt (d : TriggerDirection) (m : MarketId) (p : Int) (os : List Order) : List Order :=
  os.filter fun o => o.triggerDirection = some d ∧ o.marketId = m ∧
    o.triggerPrice.map (·.value) = some p

/-- **The trigger loop of a restore.** -/
theorem addTriggerOrders_spec (l : List Order) (s : EngineState)
    (hl : ∀ o ∈ l, o.triggerPrice.isSome ∧ o.triggerDirection.isSome) :
    (∃ triggerOrdersAbove triggerOrdersBelow triggerOrderIndex,
        l.foldl addTriggerOrder s = { s with
          triggerOrdersAbove, triggerOrdersBelow, triggerOrderIndex }) ∧
      ∀ d m p, (l.foldl addTriggerOrder s).triggersAt d m p =
        s.triggersAt d m p ++ filedAt d m p l := by
  induction l generalizing s with
  | nil => exact ⟨⟨_, _, _, rfl⟩, fun d m p => by simp [filedAt]⟩
  | cons o l ih =>
    obtain ⟨hp, hd⟩ := hl o (.head _)
    obtain ⟨price, hp⟩ := Option.isSome_iff_exists.mp hp
    obtain ⟨direction, hd⟩ := Option.isSome_iff_exists.mp hd
    obtain ⟨⟨above, below, h1⟩, hat⟩ := s.addTriggerOrder_view hp hd
    obtain ⟨⟨above', below', index', h2⟩, hrest⟩ :=
      ih (s.addTriggerOrder o) fun o' ho' => hl o' (.tail _ ho')
    refine ⟨⟨above', below', index', ?_⟩, fun d m p => ?_⟩
    · rw [List.foldl_cons, h2, h1]
    · rw [List.foldl_cons, hrest, hat]
      unfold filedAt
      rw [List.filter_cons, hp, hd]
      by_cases h : direction = d ∧ o.marketId = m ∧ price.value = p
      · simp [h]
      · rw [if_neg h, if_neg (by simpa using h)]

/-- The index that the trigger loop makes, when no id is listed twice. -/
theorem addTriggerOrders_index (l : List Order) (s : EngineState)
    (hl : ∀ o ∈ l, o.triggerPrice.isSome ∧ o.triggerDirection.isSome)
    (hempty : s.triggerOrderIndex = ∅)
    (hid : ∀ o ∈ l, ∀ o' ∈ l, o.id = o'.id → o = o') (id : OrderId)
    (x : MarketId × TriggerDirection × Int) :
    (l.foldl addTriggerOrder s).triggerOrderIndex[id]? = some x ↔ ∃ o ∈ l, o.id = id ∧
      o.marketId = x.1 ∧ o.triggerDirection = some x.2.1 ∧
      o.triggerPrice.map (·.value) = some x.2.2 := by
  let place (o : Order) : MarketId × TriggerDirection × Int :=
    (o.marketId, o.triggerDirection.getD .above, (o.triggerPrice.map (·.value)).getD 0)
  have hplace : ∀ o ∈ l, o.triggerDirection = some (place o).2.1 ∧
      o.triggerPrice.map (·.value) = some (place o).2.2 := by
    intro o ho
    obtain ⟨hp, hd⟩ := hl o ho
    obtain ⟨price, hp⟩ := Option.isSome_iff_exists.mp hp
    obtain ⟨direction, hd⟩ := Option.isSome_iff_exists.mp hd
    simp [place, hp, hd]
  have hfold : ∀ l : List Order, (∀ o ∈ l, o.triggerPrice.isSome ∧ o.triggerDirection.isSome) →
      ∀ s : EngineState, (l.foldl addTriggerOrder s).triggerOrderIndex =
        l.foldl (fun ix o => ix.insert o.id (place o)) s.triggerOrderIndex := by
    intro l
    induction l with
    | nil => exact fun _ _ => rfl
    | cons o l ih =>
      intro hl s
      obtain ⟨hp, hd⟩ := hl o (.head _)
      obtain ⟨price, hp⟩ := Option.isSome_iff_exists.mp hp
      obtain ⟨direction, hd⟩ := Option.isSome_iff_exists.mp hd
      obtain ⟨⟨_, _, h1⟩, -⟩ := s.addTriggerOrder_view hp hd
      rw [List.foldl_cons, List.foldl_cons, ih (fun o' ho' => hl o' (.tail _ ho')), h1]
      simp [place, hp, hd]
  rw [hfold l hl, hempty]
  refine (FinMap.get_foldl_put
    (fun (ix : FinMap OrderId (MarketId × TriggerDirection × Int)) k => ix[k]?)
    (fun ix o k => FinMap.get_insert ix o.id k (place o)) (fun k => FinMap.get_empty k)
    (fun o ho o' ho' h => by rw [hid o ho o' ho' h]) id x).trans ?_
  constructor
  · rintro ⟨o, ho, hi, rfl⟩
    exact ⟨o, ho, hi, rfl, hplace o ho⟩
  · rintro ⟨o, ho, hi, h1, h2, h3⟩
    obtain ⟨g2, g3⟩ := hplace o ho
    refine ⟨o, ho, hi, Prod.ext h1 (Prod.ext ?_ ?_)⟩
    · exact Option.some.inj (g2.symm.trans h2)
    · exact Option.some.inj (g3.symm.trans h3)

end EngineState

end Hypercore
