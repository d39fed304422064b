import Hypercore.Engine.BookRun
/-!
# Hypercore.Engine.OrderMaps

The orders maps and the books of an engine, as one store.

The perpetuals engine and the spot engine each record a resting order in an orders map
and in a book. Their updates of the two are the same, and are stated here once: what a
book holds after it was filled with a list of orders (`OrderBook.Holds`), that every update
keeps records where they belong (`OrderMaps.FilingKept`), and that it keeps what holds of
every order on a book (`OrderMaps.AllBooks`).
-/

namespace Hypercore

open Exec Int128

/-! ### Books that hold a list of orders -/

namespace OrderBook

/-- A book holds exactly the orders of a list, under their own keys. -/
structure Holds (b : OrderBook) (os : List Order) : Prop where
  side : ∀ (t : OrderSide) (k : OrderKey) (o : Order),
    (b.side t)[k]? = some o ↔ o ∈ os ∧ o.side = t ∧ o.rawKey = k
  index : ∀ (id : OrderId) (k : OrderKey),
    b.orderIndex[id]? = some k ↔ ∃ o ∈ os, o.id = id ∧ o.rawKey = k

variable {b : OrderBook} {os : List Order}

/-- A book with right caches is determined by the orders it holds. -/
theorem Holds.unique {b' : OrderBook} (h : Holds b os) (h' : Holds b' os) (hc : b.CachesRight)
    (hc' : b'.CachesRight) : b = b' := by
  have hside : ∀ t, b.side t = b'.side t := fun t =>
    Std.ExtTreeMap.ext_getElem? fun k => Option.ext fun o => by rw [h.side, h'.side]
  have hindex : b.orderIndex = b'.orderIndex :=
    Std.ExtTreeMap.ext_getElem? fun id => Option.ext fun k => by rw [h.index, h'.index]
  have hcache : ∀ t, b.cached t = b'.cached t := by
    intro t
    rw [hc t, hc' t, OrderBook.best_congr (hside t)]
  obtain ⟨bids, asks, index, bid, ask⟩ := b
  obtain ⟨bids', asks', index', bid', ask'⟩ := b'
  obtain rfl : bids = bids' := hside .buy
  obtain rfl : asks = asks' := hside .sell
  obtain rfl : index = index' := hindex
  obtain rfl : bid = bid' := hcache .buy
  obtain rfl : ask = ask' := hcache .sell
  rfl

theorem Holds.new : Holds .new [] where
  side t k o := by cases t <;> simp [OrderBook.new, OrderBook.side]
  index id k := by simp [OrderBook.new]

/-- The order of the list does not matter. -/
theorem Holds.congr {os' : List Order} (h : Holds b os) (hmem : ∀ o, o ∈ os ↔ o ∈ os') :
    Holds b os' where
  side t k o := by rw [h.side, hmem]
  index id k := by simp only [h.index, hmem]

/-- A book is well formed when its orders are on their own sides, and then they are found
under their ids. -/
theorem Holds.wf (h : Holds b os) (hown : ∀ o ∈ os, o.OnOwnSide) :
    b.WF ∧ ∀ id o, b.get id = some o ↔ o ∈ os ∧ o.id = id := by
  have hb : b.WF := by
    refine ⟨fun t k o hk => ?_, fun id k hk => ?_⟩
    · obtain ⟨ho, hside, rfl⟩ := (h.side t k o).mp hk
      exact ⟨hside, rfl, (Order.onOwnSide_iff.mp (hown o ho)).trans hside,
        (h.index o.id _).mpr ⟨o, ho, rfl, rfl⟩⟩
    · obtain ⟨o, ho, rfl, rfl⟩ := (h.index id k).mp hk
      exact ⟨rfl, o, (h.side _ _ o).mpr ⟨ho, (Order.onOwnSide_iff.mp (hown o ho)).symm, rfl⟩⟩
  refine ⟨hb, fun id o => ⟨fun hget => ?_, ?_⟩⟩
  · obtain ⟨hid, hside, -⟩ := hb.get_spec hget
    exact ⟨((h.side _ _ o).mp hside).1, hid⟩
  · rintro ⟨ho, rfl⟩
    exact (hb.mem_side_iff.mp ((h.side o.side o.rawKey o).mpr ⟨ho, rfl, rfl⟩)).1

/-- A well-formed book holds the orders that are found under their ids. -/
theorem WF.holds (hb : b.WF) (hmem : ∀ o, o ∈ os ↔ b.get o.id = some o) : b.Holds os := by
  refine ⟨fun t k o => ?_, fun id k => ?_⟩
  · rw [hb.mem_side_iff, hmem]
    exact ⟨fun ⟨h1, h2, h3⟩ => ⟨h1, h2, h3.symm⟩, fun ⟨h1, h2, h3⟩ => ⟨h1, h2, h3.symm⟩⟩
  · constructor
    · intro h
      obtain ⟨hid, o, ho⟩ := hb.index_spec id k h
      obtain ⟨hget, -, hk⟩ := hb.mem_side_iff.mp ho
      exact ⟨o, (hmem o).mpr hget, by rw [← hid, hk, Order.rawKey_orderId], hk.symm⟩
    · rintro ⟨o, ho, rfl, rfl⟩
      exact (hb.side_spec _ _ _ (hb.get_spec ((hmem o).mp ho)).2.1).2.2.2

/-- An order with a new id is added to its book. -/
theorem Holds.insert {o : Order} (h : Holds b os) (hkey : o.key = .ok o.rawKey)
    (hnew : ∀ o' ∈ os, o'.id ≠ o.id) :
    ∃ b', b.insert o = .ok b' ∧ Holds b' (os ++ [o]) := by
  obtain ⟨b', hb'⟩ : ∃ b', b.insert o = .ok b' := ⟨_, by simp only [OrderBook.insert, hkey]; rfl⟩
  have hother : ∀ o' ∈ os, o'.rawKey ≠ o.rawKey := fun o' ho' hk =>
    hnew o' ho' (congrArg OrderKey.orderId hk)
  refine ⟨b', hb', fun t k o' => ?_, fun id k => ?_⟩
  · rw [OrderBook.insert_side hb', List.mem_append, List.mem_singleton]
    by_cases ht : o.side = t
    · rw [if_pos ht, FinMap.get_insert]
      split
      · rename_i hk
        constructor
        · intro he
          obtain rfl := Option.some.inj he
          exact ⟨.inr rfl, ht, hk⟩
        · rintro ⟨ho' | rfl, -, hk'⟩
          · exact absurd (hk'.trans hk.symm) (hother o' ho')
          · rfl
      · rename_i hk
        rw [h.side]
        constructor
        · rintro ⟨ho', h2⟩
          exact ⟨.inl ho', h2⟩
        · rintro ⟨ho' | rfl, h2⟩
          · exact ⟨ho', h2⟩
          · exact absurd h2.2 hk
    · rw [if_neg ht, h.side]
      constructor
      · rintro ⟨ho', h2⟩
        exact ⟨.inl ho', h2⟩
      · rintro ⟨ho' | rfl, h2⟩
        · exact ⟨ho', h2⟩
        · exact absurd h2.1 ht
  · rw [OrderBook.insert_index hb', FinMap.get_insert]
    split
    · rename_i hid
      subst hid
      constructor
      · intro he
        exact ⟨o, List.mem_append_right _ (.head _), rfl, Option.some.inj he⟩
      · rintro ⟨o', ho', hid', hk⟩
        rcases List.mem_append.mp ho' with ho' | ho'
        · exact absurd hid' (hnew o' ho')
        · obtain rfl := List.mem_singleton.mp ho'
          rw [hk]
    · rename_i hid
      rw [h.index]
      constructor
      · rintro ⟨o', ho', h2⟩
        exact ⟨o', List.mem_append_left _ ho', h2⟩
      · rintro ⟨o', ho', h2⟩
        rcases List.mem_append.mp ho' with ho' | ho'
        · exact ⟨o', ho', h2⟩
        · obtain rfl := List.mem_singleton.mp ho'
          exact absurd h2.1 hid

/-- Orders with keys and ids of their own are added one after the other. -/
theorem Holds.insertAll {l : List Order} (h : Holds b os) (hc : b.CachesRight)
    (hkey : ∀ o ∈ l, o.key = .ok o.rawKey) (hnew : (os ++ l).Pairwise fun o o' => o.id ≠ o'.id) :
    ∃ b', l.foldlM OrderBook.insert b = .ok b' ∧ Holds b' (os ++ l) ∧ b'.CachesRight := by
  induction l generalizing b os with
  | nil => exact ⟨b, rfl, by simpa using h, hc⟩
  | cons o l ih =>
    have happend : os ++ o :: l = (os ++ [o]) ++ l := by simp
    obtain ⟨b₁, h1, hb₁⟩ := h.insert (hkey o (.head _)) fun o' ho' =>
      (List.pairwise_append.mp hnew).2.2 o' ho' o (.head _)
    obtain ⟨b₂, h2, hb₂, hc₂⟩ := ih hb₁ (hc.insert h1) (fun o' ho' => hkey o' (.tail _ ho'))
      (by rw [← happend]; exact hnew)
    refine ⟨b₂, ?_, by rw [happend]; exact hb₂, hc₂⟩
    rw [List.foldlM_cons, h1]
    exact h2

end OrderBook

/-! ### The filing -/

/-- The orders maps and the books of an engine, perpetual or spot. -/
structure OrderMaps where
  orders : FinMap MarketId (FinMap OrderId Order)
  orderbooks : FinMap MarketId OrderBook

namespace OrderMaps

def getOrder (s : OrderMaps) (m : MarketId) (id : OrderId) : Option Order :=
  (s.orders[m]?).bind (·[id]?)

/-- Records are kept where they belong, and the books' price caches are right. -/
structure Filed (s : OrderMaps) : Prop where
  /-- A market has an orders map exactly when it has a book. -/
  both : ∀ m : MarketId, (s.orders[m]?).isSome = (s.orderbooks[m]?).isSome
  record : ∀ m id o, s.getOrder m id = some o → o.marketId = m ∧ o.id = id ∧ o.key = .ok o.rawKey
  caches : ∀ (m : MarketId) (b : OrderBook), s.orderbooks[m]? = some b → b.CachesRight

theorem Filed.empty : Filed ⟨∅, ∅⟩ where
  both _ := rfl
  record m id o h := by simp [getOrder] at h
  caches m b h := by simp at h

/-- A market is added with an empty book and no records. -/
theorem Filed.addMarket {s : OrderMaps} (hs : s.Filed) (m : MarketId) :
    Filed ⟨s.orders.insert m ∅, s.orderbooks.insert m .new⟩ where
  both k := by
    simp only [FinMap.get_insert]
    split
    · rfl
    · exact hs.both k
  record k id o h := by
    simp only [getOrder, FinMap.get_insert] at h
    split at h
    · simp at h
    · exact hs.record k id o h
  caches k b h := by
    simp only [FinMap.get_insert] at h
    split at h
    · obtain rfl := Option.some.inj h
      exact fun t => by cases t <;> rfl
    · exact hs.caches k b h

/-- The same markets have books, and records stay where they belong. -/
structure FilingKept (s s' : OrderMaps) : Prop where
  books : ∀ m : MarketId, (s'.orderbooks[m]?).isSome = (s.orderbooks[m]?).isSome
  filed : s.Filed → s'.Filed

/-- Replace the book of a market. -/
def setBook (s : OrderMaps) (m : MarketId) (b : OrderBook) : OrderMaps :=
  { s with orderbooks := s.orderbooks.insert m b }

/-- Replace the records of a market. -/
def setRecords (s : OrderMaps) (m : MarketId) (os : FinMap OrderId Order) : OrderMaps :=
  { s with orders := s.orders.insert m os }

/-- Write a record, in a market that has records. -/
def putRecord (s : OrderMaps) (m : MarketId) (o : Order) : OrderMaps :=
  match s.orders[m]? with
  | none => s
  | some os => s.setRecords m (os.insert o.id o)

/-- Erase a record. -/
def eraseRecord (s : OrderMaps) (m : MarketId) (id : OrderId) : OrderMaps :=
  match s.orders[m]? with
  | none => s
  | some os => s.setRecords m (os.erase id)

/-- Restate a record after a partial fill. -/
def restateRecord (s : OrderMaps) (m : MarketId) (id : OrderId) (r : Decimal) : OrderMaps :=
  match s.orders[m]? with
  | none => s
  | some os =>
    match os[id]? with
    | none => s
    | some o =>
      s.setRecords m (os.insert id { o with remainingSize := r, status := .partiallyFilled })

/-- Insert an order into the book of its market. -/
def insertInBook (s : OrderMaps) (m : MarketId) (o : Order) : Exec OrderMaps :=
  match s.orderbooks[m]? with
  | none => return s
  | some b => do
    let b ← b.insert o
    return s.setBook m b

/-- Remove an order from the book of a market. -/
def removeFromBook (s : OrderMaps) (m : MarketId) (id : OrderId) : OrderMaps :=
  match s.orderbooks[m]? with
  | none => s
  | some b => s.setBook m (b.remove id).2

/-- Add an order to both. -/
def addOrder (s : OrderMaps) (o : Order) : Exec OrderMaps :=
  (s.putRecord o.marketId o).insertInBook o.marketId o

/-- Remove an order from both, when it is recorded. -/
def removeOrder (s : OrderMaps) (m : MarketId) (id : OrderId) : OrderMaps :=
  match s.getOrder m id with
  | none => s
  | some _ => (s.eraseRecord m id).removeFromBook m id

namespace FilingKept

variable {s s' t : OrderMaps} {m : MarketId} {id : OrderId}

theorem refl (s : OrderMaps) : FilingKept s s := ⟨fun _ => rfl, fun h => h⟩

theorem trans (h : FilingKept s s') (h' : FilingKept s' t) : FilingKept s t :=
  ⟨fun m => (h'.books m).trans (h.books m), fun hs => h'.filed (h.filed hs)⟩

/-- Replacing a book. -/
theorem setBook {b b' : OrderBook} (hm : s.orderbooks[m]? = some b)
    (hb : b.CachesRight → b'.CachesRight) : FilingKept s (s.setBook m b') where
  books k := FinMap.isSome_insert hm k b'
  filed hs := by
    refine ⟨fun k => (hs.both k).trans (FinMap.isSome_insert hm k b').symm, hs.record,
      fun k c hc => ?_⟩
    unfold OrderMaps.setBook at hc
    dsimp only at hc
    rw [FinMap.get_insert] at hc
    split at hc
    · obtain rfl := Option.some.inj hc
      exact hb (hs.caches _ _ hm)
    · exact hs.caches k c hc

/-- Replacing the records of a market. -/
theorem setRecords {os os' : FinMap OrderId Order} (hm : s.orders[m]? = some os)
    (hos : s.Filed → ∀ (id : OrderId) (o : Order), os'[id]? = some o →
      o.marketId = m ∧ o.id = id ∧ o.key = .ok o.rawKey) :
    FilingKept s (s.setRecords m os') where
  books _ := rfl
  filed hs := by
    refine ⟨fun k => (FinMap.isSome_insert hm k os').trans (hs.both k), fun k id o h => ?_,
      hs.caches⟩
    unfold getOrder OrderMaps.setRecords at h
    dsimp only at h
    rw [FinMap.get_insert] at h
    split at h
    · rename_i hk
      rw [← hk]
      exact hos hs id o h
    · exact hs.record k id o h

/-- A record read from the records of its market. -/
theorem record_of_get {os : FinMap OrderId Order} {o : Order} (hs : s.Filed)
    (hm : s.orders[m]? = some os) (h : os[id]? = some o) :
    o.marketId = m ∧ o.id = id ∧ o.key = .ok o.rawKey :=
  hs.record m id o (by simp only [getOrder, hm, Option.bind_some, h])

theorem eraseRecord (s : OrderMaps) (m : MarketId) (id : OrderId) :
    FilingKept s (s.eraseRecord m id) := by
  unfold OrderMaps.eraseRecord
  cases hm : s.orders[m]? with
  | none => exact .refl s
  | some os =>
    refine setRecords hm fun hs i o h => ?_
    rw [FinMap.get_erase] at h
    split at h
    · cases h
    · exact record_of_get hs hm h

theorem removeFromBook (s : OrderMaps) (m : MarketId) (id : OrderId) :
    FilingKept s (s.removeFromBook m id) := by
  unfold OrderMaps.removeFromBook
  cases hm : s.orderbooks[m]? with
  | none => exact .refl s
  | some b => exact setBook hm fun hb => hb.remove id

theorem removeOrder (s : OrderMaps) (m : MarketId) (id : OrderId) :
    FilingKept s (s.removeOrder m id) := by
  unfold OrderMaps.removeOrder
  split
  · exact .refl s
  · exact (eraseRecord s m id).trans (removeFromBook _ m id)

theorem restateRecord (s : OrderMaps) (m : MarketId) (id : OrderId) (r : Decimal) :
    FilingKept s (s.restateRecord m id r) := by
  unfold OrderMaps.restateRecord
  cases hm : s.orders[m]? with
  | none => exact .refl s
  | some os =>
    dsimp only
    cases ho : os[id]? with
    | none => exact .refl s
    | some o =>
      refine setRecords hm fun hs i o' h => ?_
      rw [FinMap.get_insert] at h
      split at h
      · -- the new remaining size is no part of the order's place
        rename_i hi
        obtain rfl := Option.some.inj h
        obtain ⟨h1, h2, h3⟩ := record_of_get hs hm ho
        exact ⟨h1, h2.trans hi, h3⟩
      · exact record_of_get hs hm h

/-- An order that is added has a key, or its market has neither book nor records. -/
theorem addOrder {o : Order} (h : s.addOrder o = .ok s') : FilingKept s s' := by
  have hbooks : (s.putRecord o.marketId o).orderbooks = s.orderbooks := by
    unfold putRecord
    split <;> rfl
  unfold OrderMaps.addOrder insertInBook at h
  rw [hbooks] at h
  cases hm : s.orderbooks[o.marketId]? with
  | none =>
    simp only [hm] at h
    obtain rfl := pure_inv h
    refine ⟨fun k => by rw [hbooks], fun hs => ?_⟩
    have hnone : s.orders[o.marketId]? = none := by
      have hboth := hs.both o.marketId
      rw [hm] at hboth
      exact Option.not_isSome_iff_eq_none.mp (by simp [hboth])
    have hsame : s.putRecord o.marketId o = s := by simp only [putRecord, hnone]
    rw [hsame]
    exact hs
  | some b =>
    simp only [hm] at h
    obtain ⟨b', hb', h⟩ := bind_inv h
    obtain rfl := pure_inv h
    have hkey : o.key = .ok o.rawKey := by
      obtain ⟨k, hk, -⟩ := bind_inv hb'
      rw [hk, Order.key_eq hk]
    have hput : FilingKept s (s.putRecord o.marketId o) := by
      unfold putRecord
      cases hos : s.orders[o.marketId]? with
      | none => exact .refl s
      | some os =>
        refine setRecords hos fun hs i o' h => ?_
        rw [FinMap.get_insert] at h
        split at h
        · rename_i hi
          obtain rfl := Option.some.inj h
          exact ⟨rfl, hi, hkey⟩
        · exact record_of_get hs hos h
    exact hput.trans (setBook (by rw [hbooks, hm]) fun hb => hb.insert hb')

/-- A pass over a list. -/
theorem foldl {σ ι : Type} {view : σ → OrderMaps} {f : σ → ι → σ}
    (hf : ∀ s i, FilingKept (view s) (view (f s i))) (is : List ι) (s : σ) :
    FilingKept (view s) (view (is.foldl f s)) := by
  induction is generalizing s with
  | nil => exact .refl _
  | cons i is ih => exact (hf s i).trans (ih _)

end FilingKept

/-! ### Conditions on all books -/

/-- Every book meets a condition. -/
def BooksMeet (C : MarketId → OrderBook → Prop) (s : OrderMaps) : Prop :=
  ∀ (m : MarketId) (b : OrderBook), s.orderbooks[m]? = some b → C m b

/-- Every order of every book has a property. -/
abbrev AllBooks (P : Order → Prop) : OrderMaps → Prop := BooksMeet fun _ b => b.AllOrders P

section BooksMeet

variable {C : MarketId → OrderBook → Prop} {s s' : OrderMaps}

theorem BooksMeet.of_books (hs : s.BooksMeet C) (h : s'.orderbooks = s.orderbooks) :
    s'.BooksMeet C := fun m b hb => hs m b (by rwa [h] at hb)

theorem BooksMeet.imp {D : MarketId → OrderBook → Prop} (hs : s.BooksMeet C)
    (h : ∀ m b, C m b → D m b) : s.BooksMeet D := fun m b hb => h m b (hs m b hb)

theorem BooksMeet.setBook {m : MarketId} {b : OrderBook} (hs : s.BooksMeet C) (hb : C m b) :
    (s.setBook m b).BooksMeet C := by
  intro k c hc
  unfold OrderMaps.setBook at hc
  dsimp only at hc
  rw [FinMap.get_insert] at hc
  split at hc
  · rename_i hk
    obtain rfl := Option.some.inj hc
    exact hk ▸ hb
  · exact hs k c hc

theorem BooksMeet.removeOrder (hs : s.BooksMeet C) {m : MarketId} {id : OrderId}
    (hC : ∀ b, C m b → C m (b.remove id).2) : (s.removeOrder m id).BooksMeet C := by
  have herase : (s.eraseRecord m id).BooksMeet C := hs.of_books (by
    unfold OrderMaps.eraseRecord
    split <;> rfl)
  unfold OrderMaps.removeOrder
  split
  · exact hs
  · unfold OrderMaps.removeFromBook
    split
    · exact herase
    · rename_i b hb
      exact herase.setBook (hC b (herase m b hb))

theorem BooksMeet.restateRecord (hs : s.BooksMeet C) (m : MarketId) (id : OrderId) (r : Decimal) :
    (s.restateRecord m id r).BooksMeet C := hs.of_books (by
  unfold OrderMaps.restateRecord
  split
  · rfl
  · split <;> rfl)

theorem BooksMeet.addOrder {o : Order} (hs : s.BooksMeet C)
    (hC : ∀ b b', C o.marketId b → b.insert o = .ok b' → C o.marketId b')
    (h : s.addOrder o = .ok s') : s'.BooksMeet C := by
  have hput : (s.putRecord o.marketId o).BooksMeet C := hs.of_books (by
    unfold OrderMaps.putRecord
    split <;> rfl)
  unfold OrderMaps.addOrder insertInBook at h
  split at h
  · obtain rfl := pure_inv h
    exact hput
  · rename_i b hb
    obtain ⟨b', hb', h⟩ := bind_inv h
    obtain rfl := pure_inv h
    exact hput.setBook (hC b b' (hput _ b hb) hb')

end BooksMeet

/-! ### Resting -/

/-- An order is recorded in a market and stands in its book. -/
def RestsIn (s : OrderMaps) (m : MarketId) (o : Order) : Prop :=
  s.getOrder m o.id = some o ∧ ∃ b : OrderBook, s.orderbooks[m]? = some b ∧
    (b.side o.side)[o.rawKey]? = some o

/-- An order that is added to a market rests in it. -/
theorem Filed.restsIn {s s' : OrderMaps} {o : Order} (hs : s.Filed)
    (hm : (s.orderbooks[o.marketId]?).isSome = true)
    (h : s.addOrder o = .ok s') : s'.RestsIn o.marketId o := by
  obtain ⟨b, hb⟩ := Option.isSome_iff_exists.mp hm
  obtain ⟨os, hos⟩ := Option.isSome_iff_exists.mp ((hs.both o.marketId).trans hm)
  have hput : s.putRecord o.marketId o = s.setRecords o.marketId (os.insert o.id o) := by
    simp only [putRecord, hos]
  unfold OrderMaps.addOrder insertInBook at h
  rw [hput] at h
  have hbook : (s.setRecords o.marketId (os.insert o.id o)).orderbooks[o.marketId]? = some b := hb
  simp only [hbook] at h
  obtain ⟨b', hb', h⟩ := bind_inv h
  obtain rfl := pure_inv h
  refine ⟨?_, b', FinMap.get_insert_self .., ?_⟩
  · unfold getOrder OrderMaps.setBook OrderMaps.setRecords
    dsimp only
    rw [FinMap.get_insert_self]
    exact FinMap.get_insert_self ..
  · rw [OrderBook.insert_side hb', if_pos rfl]
    exact FinMap.get_insert_self ..

end OrderMaps

end Hypercore
