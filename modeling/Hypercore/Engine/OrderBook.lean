import Hypercore.Primitives.Types
/-!
# Hypercore.Engine.OrderBook

The order book of one market, with price-time priority.

**One lookup.** An order is found by its id through `orderIndex`, and the side it
is looked for on is read off the sign of its key, not off the order. That is the
order's own side only when a bid has a positive price and an ask a price that is
not negative (`Order.OnOwnSide`). For books that hold only such orders
(`OrderBook.WF`) everything reduces to the single function `get`: each operation
is characterised by what it does to `get`, and `mem_side_iff` reads the two sides
back from it.
-/

namespace Hypercore

open Exec Int128

/-- Order book for a single market. -/
structure OrderBook where
  /-- Bid orders, sorted by price descending then time ascending. -/
  bids : FinMap OrderKey Order
  /-- Ask orders, sorted by price ascending then time ascending. -/
  asks : FinMap OrderKey Order
  /-- Index for fast order lookup by id. -/
  orderIndex : FinMap OrderId OrderKey
  /-- Best bid price cache. -/
  bestBidPrice : Option Decimal
  /-- Best ask price cache. -/
  bestAskPrice : Option Decimal

/-- The side a key is looked up on: negative price keys are bids. -/
def OrderKey.side (k : OrderKey) : OrderSide := if k.priceKey < 0 then .buy else .sell

/-- The key under which an order is inserted. -/
def Order.key (o : Order) : Exec OrderKey :=
  match o.side with
  | .buy => OrderKey.bid o.price o.timestamp o.id
  | .sell => return OrderKey.ask o.price o.timestamp o.id

namespace OrderBook

/-- A new empty order book. -/
def new : OrderBook := ⟨∅, ∅, ∅, none, none⟩

/-- The orders of one side, best first. -/
def side (b : OrderBook) : OrderSide → FinMap OrderKey Order
  | .buy => b.bids
  | .sell => b.asks

/-- Replace the orders of one side. -/
def setSide (b : OrderBook) (s : OrderSide) (m : FinMap OrderKey Order) : OrderBook :=
  match s with
  | .buy => { b with bids := m }
  | .sell => { b with asks := m }

/-- The first order of a side. -/
def best (b : OrderBook) (s : OrderSide) : Option Order := (b.side s).toList.head?.map (·.2)

/-- `update_best_bid` and `update_best_ask`: refresh the price cache of a side. -/
def updateBest (b : OrderBook) (s : OrderSide) : OrderBook :=
  match s with
  | .buy => { b with bestBidPrice := (b.best .buy).map (·.price) }
  | .sell => { b with bestAskPrice := (b.best .sell).map (·.price) }

/-- The best bid (highest buy price). -/
def bestBid (b : OrderBook) : Option Order := b.best .buy

/-- The best ask (lowest sell price). -/
def bestAsk (b : OrderBook) : Option Order := b.best .sell

/-- Insert an order into the book. -/
def insert (b : OrderBook) (order : Order) : Exec OrderBook := do
  let key ← order.key
  let b := { b with orderIndex := b.orderIndex.insert order.id key }
  return (b.setSide order.side ((b.side order.side).insert key order)).updateBest order.side

/-- Remove an order from the book. -/
def remove (b : OrderBook) (orderId : OrderId) : Option Order × OrderBook :=
  match b.orderIndex[orderId]? with
  | none => (none, b)
  | some key =>
    let b := { b with orderIndex := b.orderIndex.erase orderId }
    let order := (b.side key.side)[key]?
    (order, (b.setSide key.side ((b.side key.side).erase key)).updateBest key.side)

/-- Get an order by id. -/
def get (b : OrderBook) (orderId : OrderId) : Option Order :=
  match b.orderIndex[orderId]? with
  | none => none
  | some key => (b.side key.side)[key]?

/-- `get_mut` followed by a write through the reference. -/
def modify (b : OrderBook) (orderId : OrderId) (f : Order → Exec Order) : Exec OrderBook :=
  match b.orderIndex[orderId]? with
  | none => return b
  | some key =>
    match (b.side key.side)[key]? with
    | none => return b
    | some order => do
      let order ← f order
      return b.setSide key.side ((b.side key.side).insert key order)

/-- Update an order's remaining size, through `get_mut`. -/
def updateSize (b : OrderBook) (orderId : OrderId) (newRemaining : Decimal) :
    Exec (Except Error Unit × OrderBook) :=
  match b.get orderId with
  | none => return (.error (.orderNotFound orderId), b)
  | some _ => do
    let b ← b.modify orderId fun order => return { order with remainingSize := newRemaining }
    return (.ok (), b)

/-- Remove an order if it is fully filled. -/
def removeIfFilled (b : OrderBook) (orderId : OrderId) : Option Order × OrderBook :=
  match b.get orderId with
  | some order => if order.isFilled then b.remove orderId else (none, b)
  | none => (none, b)

/-- All orders in the book, bids first. -/
def getAllOrders (b : OrderBook) : List Order :=
  b.bids.toList.map (·.2) ++ b.asks.toList.map (·.2)

/-! ### Projections of the small updates -/

section Projections

variable (b : OrderBook) (s t : OrderSide) (m : FinMap OrderKey Order)

@[simp] theorem side_setSide_self : (b.setSide s m).side s = m := by cases s <;> rfl

@[simp] theorem orderIndex_setSide : (b.setSide s m).orderIndex = b.orderIndex := by
  cases s <;> rfl

@[simp] theorem side_updateBest : (b.updateBest s).side t = b.side t := by
  cases s <;> cases t <;> rfl

@[simp] theorem orderIndex_updateBest : (b.updateBest s).orderIndex = b.orderIndex := by
  cases s <;> rfl

@[simp] theorem side_withIndex (ix : FinMap OrderId OrderKey) :
    ({ b with orderIndex := ix } : OrderBook).side t = b.side t := by cases t <;> rfl

variable {s t} in
theorem side_setSide_ne (h : s ≠ t) : (b.setSide s m).side t = b.side t := by
  cases s <;> cases t <;> first | rfl | exact absurd rfl h

theorem side_setSide : (b.setSide s m).side t = if s = t then m else b.side t := by
  split
  · rename_i h
    rw [h, side_setSide_self]
  · rename_i h
    rw [side_setSide_ne b m h]

end Projections

end OrderBook

/-! ### Keys -/

namespace Order

/-- The key of an order, with the negation not checked for overflow. -/
def rawKey (o : Order) : OrderKey :=
  ⟨match o.side with | .buy => -o.price.value | .sell => o.price.value, o.timestamp, o.id⟩

/-- The sign of the price sends the order's key to the order's own side. -/
def OnOwnSide (o : Order) : Prop :=
  match o.side with
  | .buy => 0 < o.price.value
  | .sell => 0 ≤ o.price.value

instance (o : Order) : Decidable o.OnOwnSide := by
  unfold OnOwnSide
  cases o.side <;> infer_instance

theorem onOwnSide_iff {o : Order} : o.OnOwnSide ↔ o.rawKey.side = o.side := by
  unfold OnOwnSide OrderKey.side rawKey
  cases o.side with
  | buy => simp
  | sell => simp

theorem key_eq {o : Order} {k : OrderKey} (h : o.key = .ok k) : k = o.rawKey := by
  unfold key at h
  unfold rawKey
  cases hs : o.side with
  | buy =>
    rw [hs] at h
    obtain ⟨v, hv, h⟩ := bind_inv h
    obtain ⟨-, rfl⟩ := i128_eq_ok.mp hv
    exact (pure_inv h).symm
  | sell =>
    rw [hs] at h
    exact (pure_inv h).symm

@[simp] theorem rawKey_orderId (o : Order) : o.rawKey.orderId = o.id := rfl

/-- A write that keeps what the key is made of. -/
def SamePlace (o o' : Order) : Prop :=
  o'.id = o.id ∧ o'.side = o.side ∧ o'.price = o.price ∧ o'.timestamp = o.timestamp

theorem SamePlace.rawKey {o o' : Order} (h : o.SamePlace o') : o'.rawKey = o.rawKey := by
  obtain ⟨h1, h2, h3, h4⟩ := h
  simp only [Order.rawKey, h1, h2, h3, h4]

theorem fill_samePlace {o o' : Order} {size : Decimal} (h : o.fill size = .ok o') :
    o.SamePlace o' := by
  obtain ⟨h, -⟩ := fill_eq_ok h
  rw [h]
  exact ⟨rfl, rfl, rfl, rfl⟩

end Order

namespace OrderBook

/-! ### A property of all orders -/

/-- Every order on either side has the property, whatever its key. -/
def AllOrders (P : Order → Prop) (b : OrderBook) : Prop :=
  ∀ (s : OrderSide) (k : OrderKey) (o : Order), (b.side s)[k]? = some o → P o

section AllOrders

variable {P Q : Order → Prop} {b b' : OrderBook} {o : Order}

theorem AllOrders.imp (hb : b.AllOrders P) (h : ∀ o, P o → Q o) : b.AllOrders Q :=
  fun s k o ho => h o (hb s k o ho)

theorem AllOrders.new : OrderBook.new.AllOrders P := by
  intro s k o h
  cases s <;> simp [OrderBook.new, side] at h

theorem AllOrders.best (hb : b.AllOrders P) {s : OrderSide} (h : b.best s = some o) : P o := by
  obtain ⟨p, hp, rfl⟩ := Option.map_eq_some_iff.mp h
  exact hb s p.1 p.2 (FinMap.mem_toList.mp (List.mem_of_head? hp))

/-- Writing one entry of one side. -/
theorem AllOrders.setSide (hb : b.AllOrders P) {s : OrderSide} {m : FinMap OrderKey Order}
    (hm : ∀ (k : OrderKey) (o : Order), m[k]? = some o → P o) : (b.setSide s m).AllOrders P := by
  intro t k o h
  rw [side_setSide] at h
  split at h
  · exact hm k o h
  · exact hb t k o h

theorem AllOrders.updateBest (hb : b.AllOrders P) (s : OrderSide) :
    (b.updateBest s).AllOrders P := by
  intro t k o h
  rw [side_updateBest] at h
  exact hb t k o h

theorem AllOrders.withIndex (hb : b.AllOrders P) (ix : FinMap OrderId OrderKey) :
    ({ b with orderIndex := ix } : OrderBook).AllOrders P := by
  intro t k o h
  rw [side_withIndex] at h
  exact hb t k o h

theorem AllOrders.insert (hb : b.AllOrders P) (ho : P o) (h : b.insert o = .ok b') :
    b'.AllOrders P := by
  obtain ⟨k, -, h⟩ := bind_inv h
  obtain rfl := pure_inv h
  refine ((hb.withIndex _).setSide fun k' o' h' => ?_).updateBest _
  rw [FinMap.get_insert] at h'
  split at h'
  · obtain rfl := Option.some.inj h'
    exact ho
  · exact hb.withIndex _ _ k' o' h'

theorem AllOrders.remove (hb : b.AllOrders P) (id : OrderId) : (b.remove id).2.AllOrders P := by
  unfold OrderBook.remove
  split
  · exact hb
  · refine ((hb.withIndex _).setSide fun k' o' h' => ?_).updateBest _
    rw [FinMap.get_erase] at h'
    split at h'
    · exact absurd h' (by simp)
    · exact hb.withIndex _ _ k' o' h'

theorem AllOrders.modify (hb : b.AllOrders P) {f : Order → Exec Order} {id : OrderId}
    (hf : ∀ o o', P o → f o = .ok o' → P o') (h : b.modify id f = .ok b') : b'.AllOrders P := by
  unfold OrderBook.modify at h
  split at h
  · obtain rfl := pure_inv h
    exact hb
  · split at h
    · obtain rfl := pure_inv h
      exact hb
    · rename_i o ho
      obtain ⟨o', hf', h⟩ := bind_inv h
      obtain rfl := pure_inv h
      refine hb.setSide fun k' o₁ h' => ?_
      rw [FinMap.get_insert] at h'
      split at h'
      · obtain rfl := Option.some.inj h'
        exact hf o o' (hb _ _ o ho) hf'
      · exact hb _ k' o₁ h'

end AllOrders

/-! ### Well-formed books -/

/-- Every order sits on its own side under its own key, and the index holds
exactly the keys of the orders. -/
structure WF (b : OrderBook) : Prop where
  side_spec : ∀ (s : OrderSide) (k : OrderKey) (o : Order), (b.side s)[k]? = some o →
    o.side = s ∧ k = o.rawKey ∧ k.side = s ∧ b.orderIndex[o.id]? = some k
  index_spec : ∀ (id : OrderId) (k : OrderKey), b.orderIndex[id]? = some k →
    k.orderId = id ∧ ∃ o, (b.side k.side)[k]? = some o

theorem new_wf : new.WF where
  side_spec s k o h := by cases s <;> simp [new, side] at h
  index_spec id k h := by simp [new] at h

section WF

variable {b b' : OrderBook} {o o' : Order} {id : OrderId} {s : OrderSide} {k : OrderKey}

/-- An order found by id has that id and is the entry of its side. -/
theorem WF.get_spec (hb : b.WF) (h : b.get id = some o) :
    o.id = id ∧ (b.side o.side)[o.rawKey]? = some o ∧ o.OnOwnSide := by
  unfold get at h
  cases hk : b.orderIndex[id]? with
  | none => simp [hk] at h
  | some k =>
    simp only [hk] at h
    obtain ⟨h1, h2, h3, -⟩ := hb.side_spec _ _ _ h
    obtain ⟨hid, -⟩ := hb.index_spec _ _ hk
    rw [Order.onOwnSide_iff, ← h2, h3, h1]
    refine ⟨by rw [← hid, h2, Order.rawKey_orderId], h, rfl⟩

/-- The entries of a side are the orders of that side that `get` finds. -/
theorem WF.mem_side_iff (hb : b.WF) :
    (b.side s)[k]? = some o ↔ b.get o.id = some o ∧ o.side = s ∧ k = o.rawKey := by
  constructor
  · intro h
    obtain ⟨h1, h2, h3, h4⟩ := hb.side_spec _ _ _ h
    refine ⟨?_, h1, h2⟩
    simp only [get, h4, h3, h]
  · rintro ⟨h, rfl, rfl⟩
    exact (hb.get_spec h).2.1

theorem WF.get_id (hb : b.WF) (h : b.get id = some o) : o.id = id := (hb.get_spec h).1

/-- The index has an entry exactly for the ids that `get` finds. -/
theorem WF.get_eq_none (hb : b.WF) : b.get id = none ↔ b.orderIndex[id]? = none := by
  unfold get
  cases hk : b.orderIndex[id]? with
  | none => simp
  | some k =>
    obtain ⟨-, o, ho⟩ := hb.index_spec _ _ hk
    simp [ho]

theorem WF.mem_getAllOrders (hb : b.WF) : o ∈ b.getAllOrders ↔ b.get o.id = some o := by
  have hside : ∀ s, o ∈ (b.side s).toList.map (·.2) ↔ b.get o.id = some o ∧ o.side = s := by
    intro s
    rw [List.mem_map]
    constructor
    · rintro ⟨⟨k, o'⟩, hp, rfl⟩
      obtain ⟨h1, h2, -⟩ := hb.mem_side_iff.mp (FinMap.mem_toList.mp hp)
      exact ⟨h1, h2⟩
    · rintro ⟨h1, h2⟩
      exact ⟨(o.rawKey, o), FinMap.mem_toList.mpr (hb.mem_side_iff.mpr ⟨h1, h2, rfl⟩), rfl⟩
  show o ∈ (b.side .buy).toList.map (·.2) ++ (b.side .sell).toList.map (·.2) ↔ _
  rw [List.mem_append, hside, hside]
  cases o.side <;> simp

theorem WF.nodup_getAllOrders (hb : b.WF) : b.getAllOrders.Nodup := by
  have hside : ∀ s, ((b.side s).toList.map (·.2)).Nodup := fun s =>
    FinMap.nodup_values (g := Order.rawKey) fun k o h => ((hb.side_spec s k o h).2.1).symm
  refine List.nodup_append.mpr ⟨hside .buy, hside .sell, fun o ho o' ho' => ?_⟩
  rintro rfl
  obtain ⟨p, hp, rfl⟩ := List.mem_map.mp ho
  obtain ⟨p', hp', heq⟩ := List.mem_map.mp ho'
  have h1 := (hb.side_spec .buy _ _ (FinMap.mem_toList.mp hp)).1
  have h2 := (hb.side_spec .sell _ _ (FinMap.mem_toList.mp hp')).1
  rw [heq, h1] at h2
  exact absurd h2 (by decide)

/-- The first order of a side is found by its id. -/
theorem WF.best_spec (hb : b.WF) (h : b.best s = some o) : b.get o.id = some o ∧ o.side = s := by
  unfold best at h
  cases hl : (b.side s).toList with
  | nil => simp [hl] at h
  | cons p l =>
    simp only [hl, List.head?_cons, Option.map_some, Option.some.injEq] at h
    have hm : (b.side s)[p.1]? = some p.2 := FinMap.mem_toList.mp (by simp [hl])
    obtain ⟨h1, h2, -⟩ := hb.mem_side_iff.mp hm
    rw [h] at h1 h2
    exact ⟨h1, h2⟩

/-! ### The three updates, through `get` -/

theorem insert_eq (h : b.insert o = .ok b') :
    b' = (({ b with orderIndex := b.orderIndex.insert o.id o.rawKey }).setSide o.side
      ((b.side o.side).insert o.rawKey o)).updateBest o.side := by
  obtain ⟨k, hk, h⟩ := bind_inv h
  obtain rfl := Order.key_eq hk
  rw [← pure_inv h, side_withIndex]

/-- Inserting an order with a new id and a price on its own side. -/
theorem WF.insert (hb : b.WF) (hnew : b.get o.id = none) (ho : o.OnOwnSide)
    (h : b.insert o = .ok b') :
    b'.WF ∧ ∀ id, b'.get id = if o.id = id then some o else b.get id := by
  have hside : ∀ s, b'.side s =
      if o.side = s then (b.side o.side).insert o.rawKey o else b.side s := by
    intro s
    rw [insert_eq h, side_updateBest, side_setSide]
    simp only [side_withIndex]
  have hindex : b'.orderIndex = b.orderIndex.insert o.id o.rawKey := by
    rw [insert_eq h]
    simp
  have hkey := Order.onOwnSide_iff.mp ho
  rw [hb.get_eq_none] at hnew
  -- a key of the old book belongs to another id, hence differs from the new key
  have hold : ∀ s (k : OrderKey) (o₁ : Order), (b.side s)[k]? = some o₁ →
      o.rawKey ≠ k ∧ o.id ≠ o₁.id := by
    intro s k o₁ h₁
    obtain ⟨-, h2, -, h4⟩ := hb.side_spec _ _ _ h₁
    have hid : o.id ≠ o₁.id := by
      intro he
      rw [he, h4] at hnew
      exact absurd hnew (by simp)
    refine ⟨?_, hid⟩
    intro he
    rw [h2] at he
    exact hid (congrArg OrderKey.orderId he)
  have hself : (b'.side o.side)[o.rawKey]? = some o := by
    rw [hside, if_pos rfl, FinMap.get_insert_self]
  have hother : ∀ s (k : OrderKey) (o₁ : Order), (b.side s)[k]? = some o₁ →
      (b'.side s)[k]? = some o₁ := by
    intro s k o₁ h₁
    rw [hside]
    split
    · rename_i hs
      rw [FinMap.get_insert_ne _ _ (hold _ _ _ h₁).1, hs, h₁]
    · exact h₁
  have hwf : b'.WF := by
    constructor
    · intro s k o₁ h₁
      rw [hside] at h₁
      by_cases hs : o.side = s ∧ o.rawKey = k
      · obtain ⟨rfl, rfl⟩ := hs
        rw [if_pos rfl, FinMap.get_insert_self, Option.some.injEq] at h₁
        subst h₁
        exact ⟨rfl, rfl, hkey, by rw [hindex, FinMap.get_insert_self]⟩
      · have hb₁ : (b.side s)[k]? = some o₁ := by
          split at h₁
          · rename_i hs'
            have hk : o.rawKey ≠ k := fun he => hs ⟨hs', he⟩
            rw [FinMap.get_insert_ne _ _ hk, hs'] at h₁
            exact h₁
          · exact h₁
        obtain ⟨h1, h2, h3, h4⟩ := hb.side_spec _ _ _ hb₁
        refine ⟨h1, h2, h3, ?_⟩
        rw [hindex, FinMap.get_insert_ne _ _ (hold _ _ _ hb₁).2, h4]
    · intro id k h₁
      rw [hindex, FinMap.get_insert] at h₁
      split at h₁
      · rename_i hid
        obtain rfl := Option.some.inj h₁
        exact ⟨hid, o, by rw [hkey]; exact hself⟩
      · obtain ⟨h1, o₁, h2⟩ := hb.index_spec _ _ h₁
        exact ⟨h1, o₁, hother _ _ _ h2⟩
  refine ⟨hwf, fun id => ?_⟩
  split
  · rename_i hid
    rw [← hid]
    exact (hwf.mem_side_iff.mp hself).1
  · rename_i hid
    unfold get
    rw [hindex, FinMap.get_insert_ne _ _ hid]
    cases hk : b.orderIndex[id]? with
    | none => rfl
    | some k =>
      obtain ⟨-, o₁, h₁⟩ := hb.index_spec _ _ hk
      simp only [h₁, hother _ _ _ h₁]

/-- Inserting an order a second time changes neither sides nor index. -/
theorem WF.insert_again (hb : b.WF) (hg : b.get o.id = some o) (h : b.insert o = .ok b') :
    b'.WF ∧ ∀ id, b'.get id = b.get id := by
  obtain ⟨-, hmem, -⟩ := hb.get_spec hg
  obtain ⟨-, -, -, hix⟩ := hb.side_spec _ _ _ hmem
  have hside : ∀ s, b'.side s = b.side s := by
    intro s
    rw [insert_eq h, side_updateBest, side_setSide]
    simp only [side_withIndex]
    split
    · rename_i hs
      rw [← hs]
      refine Std.ExtTreeMap.ext_getElem? fun k => ?_
      rw [FinMap.get_insert]
      split
      · rename_i hk
        rw [← hk, hmem]
      · rfl
    · rfl
  have hindex : b'.orderIndex = b.orderIndex := by
    rw [insert_eq h, orderIndex_updateBest, orderIndex_setSide]
    refine Std.ExtTreeMap.ext_getElem? fun id => ?_
    rw [FinMap.get_insert]
    split
    · rename_i hid
      rw [← hid, hix]
    · rfl
  refine ⟨⟨fun s k o₁ h₁ => ?_, fun id k h₁ => ?_⟩, fun id => ?_⟩
  · rw [hside] at h₁
    rw [hindex]
    exact hb.side_spec s k o₁ h₁
  · rw [hindex] at h₁
    rw [hside]
    exact hb.index_spec id k h₁
  · simp only [get, hindex, hside]

/-- Removing an id. -/
theorem WF.remove (hb : b.WF) (id : OrderId) :
    (b.remove id).2.WF ∧ (b.remove id).1 = b.get id ∧
      ∀ a, (b.remove id).2.get a = if id = a then none else b.get a := by
  unfold OrderBook.remove
  cases hk : b.orderIndex[id]? with
  | none =>
    refine ⟨hb, (hb.get_eq_none.mpr hk).symm, fun a => ?_⟩
    show b.get a = if id = a then none else b.get a
    split
    · rename_i ha
      exact hb.get_eq_none.mpr (ha ▸ hk)
    · rfl
  | some k =>
    obtain ⟨hid, o, ho⟩ := hb.index_spec _ _ hk
    have hget : b.get id = some o := by simp only [get, hk, ho]
    set b' := ((({ b with orderIndex := b.orderIndex.erase id }).setSide k.side
      ((b.side k.side).erase k)).updateBest k.side) with hb'
    have hside : ∀ s, b'.side s = if k.side = s then (b.side k.side).erase k else b.side s := by
      intro s
      rw [hb', side_updateBest, side_setSide]
      simp only [side_withIndex]
    have hindex : b'.orderIndex = b.orderIndex.erase id := by simp [hb']
    have hkeep : ∀ s (k₁ : OrderKey) (o₁ : Order), (b.side s)[k₁]? = some o₁ → o₁.id ≠ id →
        (b'.side s)[k₁]? = some o₁ := by
      intro s k₁ o₁ h₁ hne
      rw [hside]
      split
      · rename_i hs
        have hkk : k ≠ k₁ := by
          rintro rfl
          obtain ⟨-, h2, -⟩ := hb.side_spec _ _ _ h₁
          rw [h2, Order.rawKey_orderId] at hid
          exact hne hid
        rw [FinMap.get_erase_ne _ hkk, hs, h₁]
      · exact h₁
    have hback : ∀ s (k₁ : OrderKey) (o₁ : Order), (b'.side s)[k₁]? = some o₁ →
        (b.side s)[k₁]? = some o₁ ∧ o₁.id ≠ id := by
      intro s k₁ o₁ h₁
      rw [hside] at h₁
      split at h₁
      · rename_i hs
        rw [FinMap.get_erase] at h₁
        split at h₁
        · exact absurd h₁ (by simp)
        · rename_i hkk
          rw [hs] at h₁
          refine ⟨h₁, fun hne => hkk ?_⟩
          obtain ⟨-, -, -, h4⟩ := hb.side_spec _ _ _ h₁
          rw [hne, hk, Option.some.injEq] at h4
          exact h4
      · rename_i hs
        refine ⟨h₁, fun hne => hs ?_⟩
        obtain ⟨-, -, h3, h4⟩ := hb.side_spec _ _ _ h₁
        rw [hne, hk, Option.some.injEq] at h4
        rw [h4, h3]
    have hwf : b'.WF := by
      constructor
      · intro s k₁ o₁ h₁
        obtain ⟨h₁, hne⟩ := hback _ _ _ h₁
        obtain ⟨h1, h2, h3, h4⟩ := hb.side_spec _ _ _ h₁
        refine ⟨h1, h2, h3, ?_⟩
        rw [hindex, FinMap.get_erase_ne _ (Ne.symm hne), h4]
      · intro a k₁ h₁
        rw [hindex, FinMap.get_erase] at h₁
        split at h₁
        · exact absurd h₁ (by simp)
        · rename_i hne
          obtain ⟨h1, o₁, h2⟩ := hb.index_spec _ _ h₁
          refine ⟨h1, o₁, hkeep _ _ _ h2 ?_⟩
          obtain ⟨-, h3, -⟩ := hb.side_spec _ _ _ h2
          rw [← Order.rawKey_orderId, ← h3, h1]
          exact Ne.symm hne
    refine ⟨hwf, hget ▸ (by simpa using ho), fun a => ?_⟩
    show b'.get a = if id = a then none else b.get a
    split
    · rename_i ha
      rw [hwf.get_eq_none, hindex, ← ha, FinMap.get_erase_self]
    · rename_i ha
      cases hga : b.get a with
      | none =>
        rw [hwf.get_eq_none, hindex, FinMap.get_erase_ne _ ha]
        exact hb.get_eq_none.mp hga
      | some o₁ =>
        obtain ⟨h1, h2, -⟩ := hb.get_spec hga
        have := hkeep _ _ _ h2 (h1 ▸ Ne.symm ha)
        rw [← h1]
        exact (hwf.mem_side_iff.mp this).1

/-- Removing an order takes its entry from its side and leaves the other side. -/
theorem WF.side_remove (hb : b.WF) (hg : b.get id = some o) (s : OrderSide) :
    (b.remove id).2.side s = if o.side = s then (b.side s).erase o.rawKey else b.side s := by
  obtain ⟨hid, hmem, -⟩ := hb.get_spec hg
  obtain ⟨-, -, h3, h4⟩ := hb.side_spec _ _ _ hmem
  rw [hid] at h4
  simp only [OrderBook.remove, h4, side_updateBest, side_setSide, side_withIndex, h3]
  split
  · rename_i hs
    rw [hs]
  · rfl

/-- Writing through `get_mut`, with a write that does not move the order. -/
theorem WF.modify (hb : b.WF) {f : Order → Exec Order} (hg : b.get id = some o)
    (hf : ∀ o', f o = .ok o' → o.SamePlace o') (h : b.modify id f = .ok b') :
    ∃ o', f o = .ok o' ∧ b'.WF ∧
      (∀ a, b'.get a = if id = a then some o' else b.get a) ∧
      ∀ s, b'.side s = if o.side = s then (b.side s).insert o.rawKey o' else b.side s := by
  obtain ⟨hid, hmem, hown⟩ := hb.get_spec hg
  obtain ⟨-, -, h3, h4⟩ := hb.side_spec _ _ _ hmem
  rw [hid] at h4
  simp only [OrderBook.modify, h4, h3, hmem] at h
  obtain ⟨o', hf', h⟩ := bind_inv h
  have hb' := (pure_inv h).symm
  have hp := hf o' hf'
  have hside : ∀ s, b'.side s =
      if o.side = s then (b.side s).insert o.rawKey o' else b.side s := by
    intro s
    rw [hb', side_setSide]
    split
    · rename_i hs
      rw [hs]
    · rfl
  have hindex : b'.orderIndex = b.orderIndex := by rw [hb', orderIndex_setSide]
  have hwf : b'.WF := by
    constructor
    · intro s k₁ o₁ h₁
      rw [hindex]
      rw [hside] at h₁
      split at h₁
      · rename_i hs
        rw [FinMap.get_insert] at h₁
        split at h₁
        · rename_i hk
          obtain rfl := Option.some.inj h₁
          rw [hp.rawKey, hp.2.1, hp.1, hid, ← hk]
          exact ⟨hs, rfl, by rw [h3, hs], h4⟩
        · exact hb.side_spec _ _ _ h₁
      · exact hb.side_spec _ _ _ h₁
    · intro a k₁ h₁
      rw [hindex] at h₁
      obtain ⟨h1, o₁, h2⟩ := hb.index_spec _ _ h₁
      refine ⟨h1, ?_⟩
      rw [hside]
      split
      · rw [FinMap.get_insert]
        split
        · exact ⟨o', rfl⟩
        · exact ⟨o₁, h2⟩
      · exact ⟨o₁, h2⟩
  refine ⟨o', hf', hwf, fun a => ?_, hside⟩
  split
  · rename_i ha
    have : (b'.side o.side)[o.rawKey]? = some o' := by
      rw [hside, if_pos rfl, FinMap.get_insert_self]
    rw [← ha, ← hid, ← hp.1]
    exact (hwf.mem_side_iff.mp this).1
  · rename_i ha
    unfold get
    rw [hindex]
    cases hk : b.orderIndex[a]? with
    | none => rfl
    | some k₁ =>
      obtain ⟨hka, -⟩ := hb.index_spec _ _ hk
      have hne : o.rawKey ≠ k₁ := by
        rintro rfl
        exact ha (by rw [← hid, ← Order.rawKey_orderId, hka])
      simp only [hside]
      split
      · rw [FinMap.get_insert_ne _ _ hne]
      · rfl

end WF

end OrderBook

end Hypercore
