import Hypercore.Engine.Frames
import Mathlib.Data.List.Count
/-!
# Hypercore.Engine.Stores

The three places that record a resting order: the orders map, the book, and the
account index.

**The invariant.** `Stores s` says that the orders map and the book of each market
give the same answer for every id, and that the account index lists an id once
for its owner and not at all for anyone else. `removeOrder`, `addOrder` and the
synchronisation after matching are described by what they do to these three
lookups; everything else the engine does leaves all of them alone
(`Engine.Frames`).

**Where the invariant needs help.** Matching writes the book only, and
`syncMakers` repeats in the other two places what it learns from the fills. It
learns nothing about orders that self-trade prevention removed, it does not run
when a fill-or-kill or post-only order is rejected after fills, and an order whose
price puts its key on the other side of the book cannot be found again. A
submission that does none of this is `Clean`.
-/

namespace Hypercore

open Exec Int128

namespace EngineState

/-- The order a market's book has under an id. -/
def bookGet (s : EngineState) (m : MarketId) (id : OrderId) : Option Order :=
  (s.orderbooks[m]?).bind (·.get id)

/-- How often the account index lists an id. -/
def indexCount (s : EngineState) (a : AccountAddress) (m : MarketId) (id : OrderId) : Nat :=
  (s.orderIds a m).count id

/-- The owner recorded in the orders map. -/
def ownedBy (s : EngineState) (a : AccountAddress) (m : MarketId) (id : OrderId) : Bool :=
  (s.getOrder m id).any fun o => o.owner = a

/-- All books are well formed, and a market has a book exactly when it has an orders
map. -/
structure BooksOk (s : EngineState) : Prop where
  wf : ∀ (m : MarketId) (b : OrderBook), s.orderbooks[m]? = some b → b.WF
  both : ∀ m : MarketId, (s.orders[m]?).isSome = (s.orderbooks[m]?).isSome

/-- The account index is that of the orders map, whose orders are of the market they
are kept under and have ids already handed out. -/
structure Records (s : EngineState) : Prop where
  place : ∀ m id o, s.getOrder m id = some o → o.marketId = m ∧ id < s.nextOrderId
  index : ∀ a m id, s.indexCount a m id = if s.ownedBy a m id then 1 else 0

/-- The three places agree. -/
structure Stores (s : EngineState) : Prop where
  books : BooksOk s
  records : Records s
  agree : ∀ m id, s.getOrder m id = s.bookGet m id

/-- The four fields the invariant reads are the same. -/
structure OrdersKept (s s' : EngineState) : Prop where
  orders : s'.orders = s.orders
  orderbooks : s'.orderbooks = s.orderbooks
  accountOrders : s'.accountOrders = s.accountOrders
  nextOrderId : s'.nextOrderId = s.nextOrderId

namespace OrdersKept

variable {s s' : EngineState} (h : OrdersKept s s')

include h

theorem bookGet (m : MarketId) (id : OrderId) : s'.bookGet m id = s.bookGet m id := by
  simp only [EngineState.bookGet, h.orderbooks]

theorem getOrder (m : MarketId) (id : OrderId) : s'.getOrder m id = s.getOrder m id := by
  simp only [EngineState.getOrder, h.orders]

theorem booksOk (hs : BooksOk s) : BooksOk s' := by
  constructor
  · rw [h.orderbooks]
    exact hs.wf
  · rw [h.orders, h.orderbooks]
    exact hs.both

theorem records (hs : Records s) : Records s' := by
  constructor
  · intro m id o
    rw [h.getOrder, h.nextOrderId]
    exact hs.place m id o
  · intro a m id
    have hi : s'.indexCount a m id = s.indexCount a m id := by
      simp only [indexCount, orderIds, h.accountOrders]
    have hown : s'.ownedBy a m id = s.ownedBy a m id := by simp only [ownedBy, h.getOrder]
    rw [hi, hown, hs.index]

theorem stores (hs : Stores s) : Stores s' where
  books := h.booksOk hs.books
  records := h.records hs.records
  agree m id := by rw [h.getOrder, h.bookGet, hs.agree]

end OrdersKept

theorem Stores.of_same {s s' : EngineState} (hs : Stores s) (h1 : s'.orders = s.orders)
    (h2 : s'.orderbooks = s.orderbooks) (h3 : s'.accountOrders = s.accountOrders)
    (h4 : s'.nextOrderId = s.nextOrderId) : Stores s' :=
  OrdersKept.stores ⟨h1, h2, h3, h4⟩ hs

theorem OrdersKept.of_triggers {s s' : EngineState} (h : TriggersOnly s s') :
    OrdersKept s s' := by
  obtain ⟨_, _, _, rfl⟩ := h
  exact ⟨rfl, rfl, rfl, rfl⟩

theorem OrdersKept.of_fill {s s' : EngineState} (h : Engine.FillOnly s s') :
    OrdersKept s s' := by
  obtain ⟨_, _, _, _, _, _, _, _, rfl⟩ := h
  exact ⟨rfl, rfl, rfl, rfl⟩

theorem OrdersKept.of_upkeep {s s' : EngineState} (h : Engine.UpkeepOnly s s') :
    OrdersKept s s' := by
  obtain ⟨_, _, _, _, _, _, _, _, _, rfl⟩ := h
  exact ⟨rfl, rfl, rfl, rfl⟩

/-! ### Lookups after elementary writes -/

section Lookups

variable (s : EngineState) (m m' : MarketId) (id i : OrderId) (a c : AccountAddress)

theorem orderIds_setOrderIds (ids : List OrderId) :
    (s.setOrderIds a m ids).orderIds c m' =
      if a = c ∧ m = m' then ids else s.orderIds c m' := by
  unfold orderIds setOrderIds
  simp only [FinMap.get_insert]
  by_cases ha : a = c
  · subst ha
    simp only [if_pos, Option.bind_some, FinMap.get_insert, true_and]
    split
    · rfl
    · cases s.accountOrders[a]? <;> simp
  · simp [ha]

theorem orderIds_removeFromIndex : (s.removeFromIndex a m id).orderIds c m' =
    if a = c ∧ m = m' then (s.orderIds c m').filter (· ≠ id) else s.orderIds c m' := by
  unfold removeFromIndex
  cases hi : (s.accountOrders[a]?).bind (·[m]?) with
  | none =>
    dsimp only
    split
    · rename_i h
      obtain ⟨rfl, rfl⟩ := h
      simp [orderIds, hi]
    · rfl
  | some ids =>
    dsimp only
    rw [orderIds_setOrderIds]
    split
    · rename_i h
      obtain ⟨rfl, rfl⟩ := h
      simp [orderIds, hi]
    · rfl

theorem getOrder_putRecord (o : Order) : (s.putRecord m o).getOrder m' i =
    if m = m' ∧ o.id = i ∧ (s.orders[m]?).isSome then some o else s.getOrder m' i := by
  unfold putRecord
  cases hm : s.orders[m]? with
  | none => simp
  | some os =>
    simp only [getOrder, FinMap.get_insert, Option.isSome_some, and_true]
    by_cases hk : m = m'
    · subst hk
      simp [FinMap.get_insert, hm]
    · simp [hk]

theorem getOrder_eraseRecord : (s.eraseRecord m id).getOrder m' i =
    if m = m' ∧ id = i then none else s.getOrder m' i := by
  unfold eraseRecord
  cases hm : s.orders[m]? with
  | none =>
    dsimp only
    split
    · rename_i h
      obtain ⟨rfl, rfl⟩ := h
      simp [getOrder, hm]
    · rfl
  | some os =>
    simp only [getOrder, FinMap.get_insert]
    by_cases hk : m = m'
    · subst hk
      simp [FinMap.get_erase, hm]
    · simp [hk]

theorem bookGet_setOrderbook (b : OrderBook) :
    (s.setOrderbook m b).bookGet m' i = if m = m' then b.get i else s.bookGet m' i := by
  simp only [bookGet, setOrderbook, FinMap.get_insert]
  split <;> rfl

end Lookups

/-! ### Removing an order -/

/-- What `removeOrder` does to the three lookups. -/
structure Removed (s : EngineState) (m : MarketId) (id : OrderId) (s' : EngineState) : Prop where
  ok : BooksOk s'
  getOrder : ∀ k i, s'.getOrder k i = if m = k ∧ id = i then none else s.getOrder k i
  bookGet : ∀ k i, s'.bookGet k i =
    if (s.getOrder m id).isSome ∧ m = k ∧ id = i then none else s.bookGet k i
  index : ∀ a k i, s'.indexCount a k i =
    if s.ownedBy a m id ∧ m = k ∧ id = i then 0 else s.indexCount a k i
  nextOrderId : s'.nextOrderId = s.nextOrderId

theorem indexCount_removeFromIndex (s : EngineState) (a c : AccountAddress) (m k : MarketId)
    (id i : OrderId) : (s.removeFromIndex a m id).indexCount c k i =
      if a = c ∧ m = k ∧ id = i then 0 else s.indexCount c k i := by
  unfold indexCount
  rw [orderIds_removeFromIndex]
  by_cases hk : a = c ∧ m = k
  · obtain ⟨rfl, rfl⟩ := hk
    rw [if_pos ⟨rfl, rfl⟩]
    by_cases hi : id = i
    · subst hi
      rw [if_pos ⟨rfl, rfl, rfl⟩, List.count_eq_zero]
      simp
    · rw [if_neg (by simp [hi]), List.count_filter]
      simpa using Ne.symm hi
  · rw [if_neg hk, if_neg]
    rintro ⟨h1, h2, -⟩
    exact hk ⟨h1, h2⟩

theorem removeFromBook_spec {s : EngineState} (hs : BooksOk s) (m : MarketId) (id : OrderId) :
    BooksOk (s.removeFromBook m id) ∧ ∀ k i, (s.removeFromBook m id).bookGet k i =
      if m = k ∧ id = i then none else s.bookGet k i := by
  unfold removeFromBook
  cases hb : s.orderbooks[m]? with
  | none =>
    refine ⟨hs, fun k i => ?_⟩
    dsimp only
    split
    · rename_i h
      obtain ⟨rfl, rfl⟩ := h
      simp [bookGet, hb]
    · rfl
  | some b =>
    obtain ⟨hwf, -, hget⟩ := (hs.wf m b hb).remove id
    refine ⟨⟨fun k b' h => ?_, fun k => ?_⟩, fun k i => ?_⟩
    · simp only [setOrderbook, FinMap.get_insert] at h
      split at h
      · obtain rfl := Option.some.inj h
        exact hwf
      · exact hs.wf k b' h
    · simp only [setOrderbook, FinMap.get_insert]
      split
      · rename_i h
        rw [← h, hs.both, hb]
        rfl
      · exact hs.both k
    · rw [bookGet_setOrderbook]
      by_cases hk : m = k
      · subst hk
        simp [hget, bookGet, hb]
      · simp [hk]

theorem BooksOk.eraseRecord {s : EngineState} (hs : BooksOk s) (m : MarketId) (id : OrderId) :
    BooksOk (s.eraseRecord m id) := by
  unfold EngineState.eraseRecord
  cases hm : s.orders[m]? with
  | none => exact hs
  | some os =>
    refine ⟨hs.wf, fun k => ?_⟩
    simp only [FinMap.get_insert]
    split
    · rename_i h
      rw [← h, ← hs.both, hm]
      rfl
    · exact hs.both k

theorem removeOrder_spec {s : EngineState} (hs : BooksOk s) (m : MarketId) (id : OrderId) :
    Removed s m id (s.removeOrder m id).2 := by
  unfold removeOrder
  cases ho : s.getOrder m id with
  | none =>
    refine ⟨hs, fun k i => ?_, fun k i => ?_, fun a k i => ?_, rfl⟩
    · dsimp only
      split
      · rename_i h
        rw [← h.1, ← h.2, ho]
      · rfl
    · simp [ho]
    · simp [ownedBy, ho]
  | some o =>
    set s₁ := s.eraseRecord m id with hs₁
    have hsame : s₁.orderbooks = s.orderbooks ∧ s₁.accountOrders = s.accountOrders ∧
        s₁.nextOrderId = s.nextOrderId := by
      rw [hs₁]
      unfold EngineState.eraseRecord
      split <;> exact ⟨rfl, rfl, rfl⟩
    obtain ⟨hok, hbook⟩ := removeFromBook_spec (hs.eraseRecord m id) m id
    rw [← hs₁] at hok hbook
    set s₂ := s₁.removeFromBook m id with hs₂
    have hsame₂ : s₂.orders = s₁.orders ∧ s₂.accountOrders = s₁.accountOrders ∧
        s₂.nextOrderId = s₁.nextOrderId := by
      rw [hs₂]
      unfold EngineState.removeFromBook
      split <;> exact ⟨rfl, rfl, rfl⟩
    have hsame₃ : (s₂.removeFromIndex o.owner m id).orders = s₂.orders ∧
        (s₂.removeFromIndex o.owner m id).orderbooks = s₂.orderbooks ∧
        (s₂.removeFromIndex o.owner m id).nextOrderId = s₂.nextOrderId := by
      unfold removeFromIndex
      split <;> exact ⟨rfl, rfl, rfl⟩
    refine ⟨⟨?_, ?_⟩, fun k i => ?_, fun k i => ?_, fun a k i => ?_, ?_⟩
    · rw [hsame₃.2.1]
      exact hok.wf
    · rw [hsame₃.1, hsame₃.2.1]
      exact hok.both
    · rw [← getOrder_eraseRecord, ← hs₁]
      simp only [EngineState.getOrder, hsame₃.1, hsame₂.1]
    · have h : (s₂.removeFromIndex o.owner m id).bookGet k i = s₂.bookGet k i := by
        simp only [EngineState.bookGet, hsame₃.2.1]
      rw [h, hbook]
      simp only [ho, Option.isSome_some, true_and, EngineState.bookGet, hsame.1]
    · have h : s₂.indexCount a k i = s.indexCount a k i := by
        simp only [indexCount, orderIds, hsame₂.2.1, hsame.2.1]
      rw [indexCount_removeFromIndex, h]
      simp only [ownedBy, ho, Option.any_some, decide_eq_true_eq]
    · rw [hsame₃.2.2, hsame₂.2.2, hsame.2.2]

theorem Removed.records {s s' : EngineState} {m : MarketId} {id : OrderId}
    (h : Removed s m id s') (hs : Records s) : Records s' := by
  constructor
  · intro k i o ho
    rw [h.getOrder] at ho
    split at ho
    · exact absurd ho (by simp)
    · rw [h.nextOrderId]
      exact hs.place k i o ho
  · intro a k i
    rw [h.index, hs.index, ownedBy, ownedBy, ownedBy, h.getOrder]
    by_cases hk : m = k ∧ id = i
    · obtain ⟨rfl, rfl⟩ := hk
      simp
    · rw [if_neg (fun hc => hk hc.2), if_neg hk]

theorem Stores.removeOrder {s : EngineState} (hs : Stores s) (m : MarketId) (id : OrderId) :
    Stores (s.removeOrder m id).2 := by
  have h := removeOrder_spec hs.books m id
  refine ⟨h.ok, h.records hs.records, fun k i => ?_⟩
  rw [h.getOrder, h.bookGet, hs.agree k i, hs.agree m id]
  by_cases hk : m = k ∧ id = i
  · obtain ⟨rfl, rfl⟩ := hk
    cases s.bookGet m id <;> simp
  · rw [if_neg hk, if_neg (fun hc => hk hc.2)]

/-- Nothing changed in the books, and the rest is still in order. -/
structure BooksKept (s s' : EngineState) : Prop where
  books : BooksOk s'
  records : Records s'
  bookGet : ∀ k i, s'.bookGet k i = s.bookGet k i
  nextOrderId : s'.nextOrderId = s.nextOrderId

theorem BooksKept.refl {s : EngineState} (hb : BooksOk s) (hr : Records s) : BooksKept s s :=
  ⟨hb, hr, fun _ _ => rfl, rfl⟩

theorem BooksKept.trans {s t u : EngineState} (h : BooksKept s t) (h' : BooksKept t u) :
    BooksKept s u :=
  ⟨h'.books, h'.records, fun k i => (h'.bookGet k i).trans (h.bookGet k i),
    h'.nextOrderId.trans h.nextOrderId⟩

/-- Removing ids that the book no longer has. -/
theorem removeOrders_spec {s : EngineState} {m : MarketId} (ids : List OrderId) (hb : BooksOk s)
    (hr : Records s) (hgone : ∀ id ∈ ids, s.bookGet m id = none) :
    let s' := ids.foldl (fun s id => (s.removeOrder m id).2) s
    BooksKept s s' ∧
      ∀ k i, s'.getOrder k i = if m = k ∧ i ∈ ids then none else s.getOrder k i := by
  induction ids generalizing s with
  | nil => exact ⟨.refl hb hr, fun k i => by simp⟩
  | cons id ids ih =>
    have h := removeOrder_spec hb m id
    have hbook : ∀ k i, (s.removeOrder m id).2.bookGet k i = s.bookGet k i := by
      intro k i
      rw [h.bookGet]
      split
      · rename_i hc
        rw [← hc.2.1, ← hc.2.2, hgone id (by simp)]
      · rfl
    obtain ⟨h1, h2⟩ := ih h.ok (h.records hr) fun i hi => by
      rw [hbook, hgone i (by simp [hi])]
    have hkept : BooksKept s (s.removeOrder m id).2 :=
      ⟨h.ok, h.records hr, hbook, h.nextOrderId⟩
    refine ⟨hkept.trans h1, fun k i => (h2 k i).trans ?_⟩
    rw [h.getOrder]
    by_cases hk : m = k
    · by_cases hi : id = i
      · simp [hk, hi]
      · simp [hk, hi, Ne.symm hi]
    · simp [hk]

/-! ### Partial fills -/

/-- An order with the remaining size that a partial fill left. -/
def restated (remaining : Decimal) (o : Order) : Order :=
  { o with remainingSize := remaining, status := .partiallyFilled }

theorem updateOrderRemaining_spec {s : EngineState} (hb : BooksOk s) (hr : Records s)
    (m : MarketId) (id : OrderId) (remaining : Decimal) :
    let s' := s.updateOrderRemaining m id remaining
    BooksKept s s' ∧ ∀ k i, s'.getOrder k i =
      if m = k ∧ id = i then (s.getOrder k i).map (restated remaining) else s.getOrder k i := by
  intro s'
  have hnone : s' = s → s.getOrder m id = none → BooksKept s s' ∧ ∀ k i, s'.getOrder k i =
      if m = k ∧ id = i then (s.getOrder k i).map (restated remaining) else s.getOrder k i := by
    intro he hn
    rw [he]
    refine ⟨.refl hb hr, fun k i => ?_⟩
    split
    · rename_i hk
      rw [← hk.1, ← hk.2, hn]
      rfl
    · rfl
  cases hm : s.orders[m]? with
  | none => exact hnone (by simp only [s', updateOrderRemaining, hm]) (by simp [getOrder, hm])
  | some os =>
    cases ho : os[id]? with
    | none =>
      exact hnone (by simp only [s', updateOrderRemaining, hm, ho]) (by simp [getOrder, hm, ho])
    | some o =>
      have hs' :
          s' = { s with orders := s.orders.insert m (os.insert id (restated remaining o)) } := by
        simp only [s', updateOrderRemaining, hm, ho, restated]
      have hget : ∀ k i, s'.getOrder k i = if m = k ∧ id = i then
          (s.getOrder k i).map (restated remaining) else s.getOrder k i := by
        intro k i
        rw [hs']
        unfold getOrder
        rw [FinMap.get_insert]
        by_cases hk : m = k
        · subst hk
          rw [if_pos rfl, hm, Option.bind_some, Option.bind_some, FinMap.get_insert]
          by_cases hi : id = i
          · subst hi
            simp [ho]
          · simp [hi]
        · simp [hk]
      have hrest : s'.orderbooks = s.orderbooks ∧ s'.accountOrders = s.accountOrders ∧
          s'.nextOrderId = s.nextOrderId := by
        rw [hs']
        exact ⟨rfl, rfl, rfl⟩
      refine ⟨⟨⟨?_, fun k => ?_⟩, ⟨fun k i o' h => ?_, fun a k i => ?_⟩, fun k i => ?_,
        hrest.2.2⟩, hget⟩
      · rw [hrest.1]
        exact hb.wf
      · rw [hs']
        dsimp only
        rw [FinMap.get_insert, ← hb.both]
        split
        · rename_i hk
          rw [← hk, hm]
          rfl
        · rfl
      · rw [hrest.2.2]
        rw [hget] at h
        split at h
        · obtain ⟨o₁, h₁, rfl⟩ := Option.map_eq_some_iff.mp h
          exact hr.place k i o₁ h₁
        · exact hr.place k i o' h
      · have hown : s'.ownedBy a k i = s.ownedBy a k i := by
          unfold ownedBy
          rw [hget]
          split
          · rw [Option.any_map]
            rfl
          · rfl
        rw [hown, ← hr.index a k i]
        simp only [indexCount, orderIds, hrest.2.1]
      · simp only [bookGet, hrest.1]

/-- Restating several orders; `f` is the remaining size of each. -/
theorem updateRemainings_spec {s : EngineState} {m : MarketId} (ps : List (OrderId × Decimal))
    (f : OrderId → Decimal) (hps : ∀ p ∈ ps, p.2 = f p.1) (hb : BooksOk s) (hr : Records s) :
    let s' := ps.foldl (fun s (id, remaining) => s.updateOrderRemaining m id remaining) s
    BooksKept s s' ∧ ∀ k i, s'.getOrder k i = if m = k ∧ i ∈ ps.map (·.1) then
      (s.getOrder k i).map (restated (f i)) else s.getOrder k i := by
  induction ps generalizing s with
  | nil => exact ⟨.refl hb hr, fun k i => by simp⟩
  | cons p ps ih =>
    obtain ⟨h1, h2⟩ := updateOrderRemaining_spec hb hr m p.1 p.2
    obtain ⟨g1, g2⟩ := ih (fun q hq => hps q (by simp [hq])) h1.books h1.records
    refine ⟨h1.trans g1, fun k i => (g2 k i).trans ?_⟩
    rw [h2, hps p (by simp)]
    simp only [List.map_cons, List.mem_cons]
    by_cases hk : m = k
    · by_cases hi : p.1 = i
      · -- restating twice with the same size is restating once
        subst hi
        by_cases hmem : p.1 ∈ ps.map (·.1)
        · cases s.getOrder k p.1 <;> simp only [hk, hmem, true_and, true_or, if_true] <;> rfl
        · simp only [hk, hmem, true_and, true_or, if_true, if_false, and_false]
      · simp only [hk, hi, Ne.symm hi, true_and, false_or, if_false]
    · simp only [hk, false_and, if_false]

end EngineState

end Hypercore
