import Hypercore.Spot.Filing
/-!
# Hypercore.Spot.Snapshot

Snapshots of the spot engine, taken for re-orgs.

A snapshot has every map but the books and the balance sheet. `restore` makes a new book
for each market and inserts the recorded orders, market by market in hash order, so a book
comes back with the orders of the *orders map* (`restore_snapshot`). The two write the
status of a partially filled order differently; execution reads it from neither, and books
are compared without it (`OrderBook.unstated`).
-/

namespace Hypercore

open Exec Int128

/-! ### Books without statuses -/

/-- An order less its status. -/
def Order.unstated (o : Order) : Order := { o with status := .open }

namespace OrderBook

/-- A book whose orders have no status. -/
def unstated (b : OrderBook) : OrderBook :=
  { b with
    bids := b.bids.map fun _ o => o.unstated
    asks := b.asks.map fun _ o => o.unstated }

theorem side_unstated (b : OrderBook) (t : OrderSide) :
    b.unstated.side t = (b.side t).map fun _ o => o.unstated := by
  cases t <;> rfl

theorem get_side_unstated (b : OrderBook) (t : OrderSide) (k : OrderKey) :
    (b.unstated.side t)[k]? = ((b.side t)[k]?).map Order.unstated := by
  rw [side_unstated, Std.ExtTreeMap.getElem?_map]

variable {b : OrderBook}

/-- Prices are cached as before. -/
theorem CachesRight.unstated (h : b.CachesRight) : b.unstated.CachesRight := by
  intro t
  have hcached : b.unstated.cached t = b.cached t := by cases t <;> rfl
  rw [hcached, h t]
  unfold best
  rw [side_unstated, Std.ExtTreeMap.toList_map, List.head?_map, Option.map_map, Option.map_map,
    Option.map_map]
  rfl

/-- The orders of a book, less their statuses. -/
theorem Holds.unstated {os : List Order} (h : Holds b os) :
    Holds b.unstated (os.map Order.unstated) where
  side t k o := by
    rw [get_side_unstated, List.mem_map]
    constructor
    · intro ho
      obtain ⟨o', ho', rfl⟩ := Option.map_eq_some_iff.mp ho
      obtain ⟨h1, h2, h3⟩ := (h.side t k o').mp ho'
      exact ⟨⟨o', h1, rfl⟩, h2, h3⟩
    · rintro ⟨⟨o', h1, rfl⟩, h2, h3⟩
      rw [(h.side t k o').mpr ⟨h1, h2, h3⟩]
      rfl
  index id k := by
    show b.orderIndex[id]? = some k ↔ _
    rw [h.index]
    constructor
    · rintro ⟨o, h1, h2, h3⟩
      exact ⟨o.unstated, List.mem_map_of_mem h1, h2, h3⟩
    · rintro ⟨o, h1, h2, h3⟩
      obtain ⟨o', ho', rfl⟩ := List.mem_map.mp h1
      exact ⟨o', ho', h2, h3⟩

end OrderBook

/-! ### Snapshots -/

/-- Snapshot of the spot engine state. -/
structure SpotEngineStateSnapshot where
  tokens : FinMap TokenIndex SpotToken
  markets : FinMap SpotMarketId SpotMarket
  reserved : FinMap (PairKey AccountAddress TokenIndex) Decimal
  orders : FinMap SpotMarketId (FinMap OrderId Order)
  accountOrders : FinMap AccountAddress (FinMap SpotMarketId (List OrderId))
  nextTokenIndex : TokenIndex
  nextOrderId : OrderId
  nextMarketId : SpotMarketId

namespace SpotEngineState

/-- Create a snapshot of the current spot engine state. -/
def snapshot (s : SpotEngineState) : SpotEngineStateSnapshot where
  tokens := s.tokens
  markets := s.markets
  reserved := s.reserved
  orders := s.orders
  accountOrders := s.accountOrders
  nextTokenIndex := s.nextTokenIndex
  nextOrderId := s.nextOrderId
  nextMarketId := s.nextMarketId

/-- Insert the recorded orders of a market into its book. -/
def fillBook (ord : HashOrder) (books : FinMap SpotMarketId OrderBook)
    (p : SpotMarketId × FinMap OrderId Order) : Exec (FinMap SpotMarketId OrderBook) :=
  match books[p.1]? with
  | none => return books
  | some book => do
    let book ← ((ord.visit p.2.toList).map (·.2)).foldlM OrderBook.insert book
    return books.insert p.1 book

/-- Restore state from a snapshot. The books are rebuilt from the orders. -/
def restore (ord : HashOrder) (s : SpotEngineState) (snapshot : SpotEngineStateSnapshot) :
    Exec SpotEngineState := do
  let orderbooks := (ord.visit snapshot.markets.toList).foldl
    (fun books p => books.insert p.1 .new) ∅
  let orderbooks ← (ord.visit snapshot.orders.toList).foldlM (fillBook ord) orderbooks
  return {
    tokens := snapshot.tokens
    markets := snapshot.markets
    orderbooks
    unifiedState := s.unifiedState
    reserved := snapshot.reserved
    orders := snapshot.orders
    accountOrders := snapshot.accountOrders
    nextTokenIndex := snapshot.nextTokenIndex
    nextOrderId := snapshot.nextOrderId
    nextMarketId := snapshot.nextMarketId }

/-- The recorded orders of a market. -/
def recorded (s : SpotEngineState) (m : SpotMarketId) : List Order :=
  ((s.orders[m]?).getD ∅).toList.map (·.2)

/-- All that execution reads: everything, with the orders in books less their status. -/
def unstated (s : SpotEngineState) : SpotEngineState :=
  { s with orderbooks := s.orderbooks.map fun _ b => b.unstated }

/-- Each book holds exactly the recorded orders of its market, status apart. -/
def BooksRecorded (s : SpotEngineState) : Prop :=
  ∀ (m : SpotMarketId) (b : OrderBook), s.orderbooks[m]? = some b →
    b.unstated.Holds ((s.recorded m).map Order.unstated)

/-! ### What a restore brings back -/

variable {books : FinMap SpotMarketId OrderBook} {s : SpotEngineState}

/-- The book that the orders of one market make. -/
theorem fillBook_spec {m : SpotMarketId} {os : FinMap OrderId Order} (ord : HashOrder)
    (hm : books[m]? = some .new)
    (hos : ∀ (id : OrderId) (o : Order), os[id]? = some o → o.id = id ∧ o.key = .ok o.rawKey) :
    ∃ b, fillBook ord books (m, os) = .ok (books.insert m b) ∧
      b.Holds (os.toList.map (·.2)) ∧ b.CachesRight := by
  have hvisit : ((ord.visit os.toList).map (·.2)).Perm (os.toList.map (·.2)) := (ord.perm _).map _
  have hmem : ∀ o ∈ (ord.visit os.toList).map (·.2), os[o.id]? = some o := by
    intro o ho
    obtain ⟨p, hp, rfl⟩ := List.mem_map.mp ho
    have hget := FinMap.mem_toList.mp ((HashOrder.mem_visit ord).mp hp)
    rw [(hos _ _ hget).1, hget]
  have hdistinct : ((ord.visit os.toList).map (·.2)).Pairwise fun o o' => o.id ≠ o'.id := by
    have hnodup := hvisit.nodup_iff.mpr (FinMap.nodup_values (g := Order.id)
      fun id o h => (hos id o h).1)
    refine hnodup.imp_of_mem fun {o o'} ho ho' hne hid => hne ?_
    have hget := hmem o ho
    rw [hid, hmem o' ho'] at hget
    exact (Option.some.inj hget).symm
  obtain ⟨b, hb, hholds, hcaches⟩ := OrderBook.Holds.new.insertAll
    (l := (ord.visit os.toList).map (·.2)) (fun t => by cases t <;> rfl)
    (fun o ho => (hos _ _ (hmem o ho)).2) (by rw [List.nil_append]; exact hdistinct)
  refine ⟨b, ?_, hholds.congr fun o => ?_, hcaches⟩
  · simp only [fillBook, hm, hb]
    rfl
  · rw [List.nil_append, hvisit.mem_iff]

/-- The books that the orders of several markets make. -/
theorem fillBooks_spec (ord : HashOrder) {l : List (SpotMarketId × FinMap OrderId Order)}
    (hkeys : (l.map (·.1)).Nodup) (hnew : ∀ p ∈ l, books[p.1]? = some .new)
    (hl : ∀ p ∈ l, ∀ (id : OrderId) (o : Order), p.2[id]? = some o →
      o.id = id ∧ o.key = .ok o.rawKey) :
    ∃ books', l.foldlM (fillBook ord) books = .ok books' ∧
      (∀ p ∈ l, ∃ b, books'[p.1]? = some b ∧ b.Holds (p.2.toList.map (·.2)) ∧ b.CachesRight) ∧
      ∀ m : SpotMarketId, m ∉ l.map (·.1) → books'[m]? = books[m]? := by
  induction l generalizing books with
  | nil => exact ⟨books, rfl, by simp, fun _ _ => rfl⟩
  | cons p l ih =>
    rw [List.map_cons, List.nodup_cons] at hkeys
    obtain ⟨b, hfill, hholds, hcaches⟩ := fillBook_spec ord (hnew p (.head _)) (hl p (.head _))
    have hother : ∀ q ∈ l, p.1 ≠ q.1 := fun q hq h =>
      hkeys.1 (h ▸ List.mem_map_of_mem hq)
    have hnew' : ∀ q ∈ l, (books.insert p.1 b)[q.1]? = some .new := fun q hq => by
      rw [FinMap.get_insert_ne _ _ (hother q hq)]
      exact hnew q (.tail _ hq)
    obtain ⟨books', hrest, hfilled, hsame⟩ := ih hkeys.2 hnew' fun q hq => hl q (.tail _ hq)
    refine ⟨books', ?_, fun q hq => ?_, fun m hm => ?_⟩
    · rw [List.foldlM_cons, hfill]
      exact hrest
    · rcases List.mem_cons.mp hq with rfl | hq
      · refine ⟨b, ?_, hholds, hcaches⟩
        rw [hsame _ hkeys.1, FinMap.get_insert, if_pos rfl]
      · exact hfilled q hq
    · rw [List.map_cons, List.mem_cons, not_or] at hm
      rw [hsame m hm.2, FinMap.get_insert_ne _ _ (Ne.symm hm.1)]

/-- **What a restore brings back.** Everything of `s` but its books; these hold the recorded
orders. The balance sheet is that of the state restored into. -/
theorem restore_snapshot (hs : s.Housed) (ord : HashOrder) (t : SpotEngineState) : ∃ orderbooks,
      t.restore ord s.snapshot = .ok { s with orderbooks, unifiedState := t.unifiedState } ∧
      (∀ m : SpotMarketId, (orderbooks[m]?).isSome = (s.orderbooks[m]?).isSome) ∧
      ∀ (m : SpotMarketId) (b : OrderBook), orderbooks[m]? = some b →
        b.Holds (s.recorded m) ∧ b.CachesRight := by
  have hboth : ∀ m : SpotMarketId, (s.orders[m]?).isSome = (s.orderbooks[m]?).isSome :=
    hs.filed.both
  -- a new book for each market
  let fresh : FinMap SpotMarketId OrderBook :=
    (ord.visit s.markets.toList).foldl (fun books p => books.insert p.1 .new) ∅
  have hfresh : ∀ (m : SpotMarketId) (b : OrderBook),
      fresh[m]? = some b ↔ b = .new ∧ (s.orders[m]?).isSome := by
    intro m b
    refine (FinMap.get_foldl_put (fun (books : FinMap SpotMarketId OrderBook) k => books[k]?)
      (fun books p k => FinMap.get_insert books p.1 k .new) (fun k => FinMap.get_empty k)
      (fun _ _ _ _ _ => rfl) m b).trans ?_
    rw [hboth, hs.listed, Option.isSome_iff_exists]
    constructor
    · rintro ⟨p, hp, rfl, rfl⟩
      exact ⟨rfl, p.2, FinMap.mem_toList.mp ((HashOrder.mem_visit ord).mp hp)⟩
    · rintro ⟨rfl, market, h⟩
      exact ⟨(m, market), (HashOrder.mem_visit ord).mpr (FinMap.mem_toList.mpr h), rfl, rfl⟩
  -- filled with the recorded orders of the market
  have hmem : ∀ p, p ∈ ord.visit s.orders.toList ↔ s.orders[p.1]? = some p.2 := fun p => by
    rw [HashOrder.mem_visit, FinMap.mem_toList]
  have hnew : ∀ p ∈ ord.visit s.orders.toList, fresh[p.1]? = some .new := fun p hp =>
    (hfresh _ _).mpr ⟨rfl, by rw [(hmem p).mp hp]; rfl⟩
  obtain ⟨books, hfill, hfilled, hsame⟩ := fillBooks_spec ord
    (((ord.perm _).map _).nodup_iff.mpr (FinMap.nodup_keys _)) hnew
    fun p hp id o ho => (OrderMaps.FilingKept.record_of_get hs.filed ((hmem p).mp hp) ho).2
  have hcase : ∀ m : SpotMarketId, (books[m]? = none ∧ s.orders[m]? = none) ∨
      ∃ b, books[m]? = some b ∧ (s.orders[m]?).isSome ∧ b.Holds (s.recorded m) ∧
        b.CachesRight := by
    intro m
    cases hm : s.orders[m]? with
    | none =>
      refine .inl ⟨?_, rfl⟩
      rw [hsame m]
      · refine Option.eq_none_iff_forall_ne_some.mpr fun b hb => ?_
        obtain ⟨-, h⟩ := (hfresh m b).mp hb
        rw [hm] at h
        cases h
      · intro h
        obtain ⟨p, hp, rfl⟩ := List.mem_map.mp h
        rw [(hmem p).mp hp] at hm
        cases hm
    | some os =>
      obtain ⟨b, hb, hholds, hcaches⟩ := hfilled (m, os) ((hmem _).mpr hm)
      refine .inr ⟨b, hb, rfl, ?_, hcaches⟩
      unfold recorded
      rw [hm]
      exact hholds
  refine ⟨books, ?_, fun m => ?_, fun m b hb => ?_⟩
  · show (do
      let orderbooks ← (ord.visit s.orders.toList).foldlM (fillBook ord) fresh
      return { s with orderbooks, unifiedState := t.unifiedState } : Exec SpotEngineState) = _
    rw [hfill]
    rfl
  · rw [← hboth]
    rcases hcase m with ⟨h1, h2⟩ | ⟨b, h1, h2, -⟩
    · rw [h1, h2]
      rfl
    · rw [h1, h2]
      rfl
  · rcases hcase m with ⟨h1, -⟩ | ⟨b', h1, -, hright⟩
    · rw [h1] at hb
      cases hb
    · obtain rfl := Option.some.inj (h1.symm.trans hb)
      exact hright

/-- **When the books come back.** Books made from the recorded orders are those of the state,
status apart, exactly when each of these holds the recorded orders. -/
theorem unstated_eq_iff (hs : s.Housed) {orderbooks : FinMap SpotMarketId OrderBook}
    (hdomain : ∀ m : SpotMarketId, (orderbooks[m]?).isSome = (s.orderbooks[m]?).isSome)
    (hbooks : ∀ (m : SpotMarketId) (b : OrderBook), orderbooks[m]? = some b →
      b.Holds (s.recorded m) ∧ b.CachesRight) :
    { s with orderbooks }.unstated = s.unstated ↔ s.BooksRecorded := by
  have hget : ∀ (books : FinMap SpotMarketId OrderBook) (m : SpotMarketId),
      (books.map fun _ b => OrderBook.unstated b)[m]? = (books[m]?).map OrderBook.unstated :=
    fun books m => Std.ExtTreeMap.getElem?_map
  constructor
  · intro h m b hm
    have hsame : ((orderbooks[m]?).map OrderBook.unstated) = some b.unstated := by
      rw [← hget, show (orderbooks.map fun _ b => OrderBook.unstated b) =
        s.orderbooks.map fun _ b => OrderBook.unstated b from
          congrArg SpotEngineState.orderbooks h, hget, hm]
      rfl
    obtain ⟨b', hb', heq⟩ := Option.map_eq_some_iff.mp hsame
    rw [← heq]
    exact (hbooks m b' hb').1.unstated
  · intro h
    unfold unstated
    congr 1
    refine Std.ExtTreeMap.ext_getElem? fun m => ?_
    rw [hget, hget]
    have hsome := hdomain m
    cases hm : s.orderbooks[m]? with
    | none =>
      rw [hm, Option.isSome_none] at hsome
      rw [Option.isSome_eq_false_iff, Option.isNone_iff_eq_none] at hsome
      rw [hsome]
    | some b =>
      rw [hm, Option.isSome_some] at hsome
      obtain ⟨b', hb'⟩ := Option.isSome_iff_exists.mp hsome
      obtain ⟨hholds, hcaches⟩ := hbooks m b' hb'
      rw [hb', Option.map_some, Option.map_some, hholds.unstated.unique (h m b hm)
        hcaches.unstated (hs.filed.caches m b hm).unstated]

end SpotEngineState

end Hypercore
