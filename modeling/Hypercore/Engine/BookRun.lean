import Hypercore.Engine.OrderBook
import Hypercore.Lib.Run
import Hypercore.Primitives.Market
/-!
# Hypercore.Engine.BookRun

The order book over any sequence of its operations.

**What a book is for.** Seen from outside, a book is a map from ids to the orders
that were inserted and not removed (`BookLog.live`), and `Represents` says that
sides, index and price caches all describe that map. The map is kept beside the
book by a run that never looks into the book.

**When it is one.** A run may insert orders at any price on the tick, zero and negative prices
included. A key whose sign points to the other side strands its order: no operation finds it
again. This is the only way to fail: a book represents the live orders exactly as long as every
order inserted so far has a price whose sign sends its key to its own side.
-/

namespace Hypercore

open Exec Int128

/-! ### Operations -/

/-- What may be written through `get_mut`: anything that leaves the order where it is. -/
structure Order.Write where
  run : Order → Exec Order
  samePlace : ∀ {o o' : Order}, run o = .ok o' → o.SamePlace o'

/-- The write of a match. -/
def Order.Write.fill (size : Decimal) : Order.Write := ⟨(·.fill size), Order.fill_samePlace⟩

/-- The write of `update_size`. -/
def Order.Write.remaining (newRemaining : Decimal) : Order.Write where
  run o := return { o with remainingSize := newRemaining }
  samePlace h := by
    obtain rfl := pure_inv h
    exact ⟨rfl, rfl, rfl, rfl⟩

/-- An operation of a book that changes it. -/
inductive BookOp
  | insert (order : Order)
  | remove (orderId : OrderId)
  | getMut (orderId : OrderId) (write : Order.Write)
  | updateSize (orderId : OrderId) (newRemaining : Decimal)
  | removeIfFilled (orderId : OrderId)

/-- The operation on the book. -/
def BookOp.run : BookOp → OrderBook → Exec OrderBook
  | .insert order, b => b.insert order
  | .remove orderId, b => return (b.remove orderId).2
  | .getMut orderId write, b => b.modify orderId write.run
  | .updateSize orderId newRemaining, b => do
    let (_, b) ← b.updateSize orderId newRemaining
    return b
  | .removeIfFilled orderId, b => return (b.removeIfFilled orderId).2

/-- A write to a live order. A write that halts ends the run. -/
def writeLive (live : FinMap OrderId Order) (orderId : OrderId) (write : Order.Write) :
    FinMap OrderId Order :=
  match live[orderId]? with
  | none => live
  | some order =>
    match write.run order with
    | .ok order' => live.insert orderId order'
    | .error _ => live

/-- What the operation means for the live orders. -/
def BookOp.live : BookOp → FinMap OrderId Order → FinMap OrderId Order
  | .insert order, live => live.insert order.id order
  | .remove orderId, live => live.erase orderId
  | .getMut orderId write, live => writeLive live orderId write
  | .updateSize orderId newRemaining, live => writeLive live orderId (.remaining newRemaining)
  | .removeIfFilled orderId, live =>
    if (live[orderId]?).any (·.isFilled) then live.erase orderId else live

/-- The orders that the operation brings in. -/
def BookOp.inserts : BookOp → List Order
  | .insert order => [order]
  | _ => []

/-- A book, with what it should hold. -/
structure BookLog where
  book : OrderBook
  /-- The orders inserted and not removed, by id, with what was written to them. -/
  live : FinMap OrderId Order
  /-- Every order inserted so far. -/
  inserted : List Order

namespace BookLog

def new : BookLog := ⟨.new, ∅, []⟩

def step (op : BookOp) (s : BookLog) : Exec BookLog := do
  let book ← op.run s.book
  return ⟨book, op.live s.live, op.inserts ++ s.inserted⟩

/-- Inserted orders have new ids and prices that the market's tick admits. -/
def Admits (config : MarketConfig) (s : BookLog) (op : BookOp) : Prop :=
  ∀ o ∈ op.inserts, (∀ o' ∈ s.inserted, o'.id ≠ o.id) ∧ config.validatePrice o.price = .ok true

instance (config : MarketConfig) (s : BookLog) (op : BookOp) : Decidable (Admits config s op) :=
  inferInstanceAs (Decidable (∀ o ∈ op.inserts, _ ∧ _))

/-- Some sequence of operations on an empty book ends in `s`. -/
abbrev Reachable (config : MarketConfig) (s : BookLog) : Prop :=
  Run.Reaches step (Admits config) new s

end BookLog

namespace OrderBook

/-- The price cache of a side. -/
def cached (b : OrderBook) : OrderSide → Option Decimal
  | .buy => b.bestBidPrice
  | .sell => b.bestAskPrice

/-- The book holds exactly the live orders, and every part of it says so. -/
structure Represents (b : OrderBook) (live : FinMap OrderId Order) : Prop where
  /-- `order_index` maps exactly the ids of the orders of both sides, to their keys. -/
  index : ∀ (id : OrderId) (k : OrderKey),
    b.orderIndex[id]? = some k ↔ ∃ s, ∃ o : Order, (b.side s)[k]? = some o ∧ o.id = id
  /-- The orders of a side are the live orders of that side, under their keys. -/
  sides : ∀ (s : OrderSide) (k : OrderKey) (o : Order),
    (b.side s)[k]? = some o ↔ live[o.id]? = some o ∧ o.side = s ∧ k = o.rawKey
  get : ∀ id : OrderId, b.get id = live[id]?
  remove : ∀ id : OrderId, (b.remove id).1 = live[id]?
  /-- `best_bid` and `best_ask` are the prices of the first orders. -/
  caches : ∀ s, b.cached s = (b.best s).map (·.price)

/-- Well-formed books that find the live orders represent them. -/
theorem WF.represents {b : OrderBook} {live : FinMap OrderId Order} (hb : b.WF)
    (hget : ∀ id : OrderId, b.get id = live[id]?)
    (hcaches : ∀ s, b.cached s = (b.best s).map (·.price)) : b.Represents live where
  index id k := by
    constructor
    · intro h
      obtain ⟨hid, o, ho⟩ := hb.index_spec _ _ h
      obtain ⟨-, hk, -⟩ := hb.side_spec _ _ _ ho
      refine ⟨k.side, o, ho, ?_⟩
      rw [← hid, hk, Order.rawKey_orderId]
    · rintro ⟨s, o, ho, rfl⟩
      exact (hb.side_spec _ _ _ ho).2.2.2
  sides s k o := by
    rw [← hget]
    exact hb.mem_side_iff
  get := hget
  remove id := by rw [(hb.remove id).2.1, hget]
  caches := hcaches

/-! ### What the operations do to a book, well formed or not -/

section Raw

variable {b b' : OrderBook} {o : Order} {id : OrderId} {k : OrderKey}

theorem insert_side (h : b.insert o = .ok b') (s : OrderSide) :
    b'.side s = if o.side = s then (b.side s).insert o.rawKey o else b.side s := by
  rw [insert_eq h, side_updateBest, side_setSide]
  simp only [side_withIndex]
  split
  · rename_i hs
    rw [hs]
  · rfl

theorem insert_index (h : b.insert o = .ok b') :
    b'.orderIndex = b.orderIndex.insert o.id o.rawKey := by
  rw [insert_eq h, orderIndex_updateBest, orderIndex_setSide]

theorem remove_side (h : b.orderIndex[id]? = some k) (s : OrderSide) :
    (b.remove id).2.side s = if k.side = s then (b.side s).erase k else b.side s := by
  simp only [OrderBook.remove, h, side_updateBest, side_setSide, side_withIndex]
  split
  · rename_i hs
    rw [hs]
  · rfl

theorem remove_index (h : b.orderIndex[id]? = some k) :
    (b.remove id).2.orderIndex = b.orderIndex.erase id := by
  simp only [OrderBook.remove, h, orderIndex_updateBest, orderIndex_setSide]

theorem remove_none (h : b.orderIndex[id]? = none) : (b.remove id).2 = b := by
  simp only [OrderBook.remove, h]

/-- A write either finds no order or rewrites one entry. -/
theorem modify_cases {f : Order → Exec Order} (h : b.modify id f = .ok b') :
    b' = b ∨ ∃ (k : OrderKey) (o o' : Order),
      b.orderIndex[id]? = some k ∧ (b.side k.side)[k]? = some o ∧
      f o = .ok o' ∧ b' = b.setSide k.side ((b.side k.side).insert k o') := by
  unfold OrderBook.modify at h
  split at h
  · exact .inl (pure_inv h).symm
  · rename_i k hk
    split at h
    · exact .inl (pure_inv h).symm
    · rename_i o ho
      obtain ⟨o', ho', h⟩ := bind_inv h
      exact .inr ⟨k, o, o', hk, ho, ho', (pure_inv h).symm⟩

/-- `update_size` is a write through `get_mut`. -/
theorem updateSize_modify {r : Decimal} {x : Except Error Unit}
    (h : b.updateSize id r = .ok (x, b')) :
    b.modify id (Order.Write.remaining r).run = .ok b' := by
  unfold updateSize at h
  cases hg : b.get id with
  | none =>
    simp only [hg] at h
    obtain ⟨-, rfl⟩ := pair_inv h
    unfold OrderBook.get at hg
    unfold OrderBook.modify
    cases hk : b.orderIndex[id]? with
    | none => rfl
    | some k =>
      simp only [hk] at hg
      simp only [hg]
      rfl
  | some o =>
    simp only [hg] at h
    obtain ⟨b₁, hb₁, h⟩ := bind_inv h
    obtain ⟨-, rfl⟩ := pair_inv h
    exact hb₁

theorem best_congr {s : OrderSide} (h : b'.side s = b.side s) : b'.best s = b.best s := by
  unfold best
  rw [h]

theorem cached_setSide (s t : OrderSide) (m : FinMap OrderKey Order) :
    (b.setSide s m).cached t = b.cached t := by cases s <;> rfl

theorem cached_updateBest (s t : OrderSide) :
    (b.updateBest s).cached t = if s = t then (b.best s).map (·.price) else b.cached t := by
  cases s <;> cases t <;> rfl

end Raw

/-! ### Caches -/

section Caches

variable {b : OrderBook}

/-- Both price caches are right. -/
def CachesRight (b : OrderBook) : Prop := ∀ s, b.cached s = (b.best s).map (·.price)

/-- A side that is rewritten and refreshed, as `insert` and `remove` do. -/
theorem CachesRight.refreshed (h : b.CachesRight) (ix : FinMap OrderId OrderKey) (s : OrderSide)
    (m : FinMap OrderKey Order) :
    ((({ b with orderIndex := ix } : OrderBook).setSide s m).updateBest s).CachesRight := by
  intro t
  rw [cached_updateBest, best_congr (side_updateBest _ s t)]
  split
  · rename_i hs
    rw [hs]
  · rename_i hs
    rw [cached_setSide, best_congr (side_setSide_ne _ m hs), best_congr (side_withIndex b t ix)]
    exact h t

/-- A write that keeps the order's price, with no refresh. -/
theorem CachesRight.written (h : b.CachesRight) {s : OrderSide} {k : OrderKey} {o o' : Order}
    (ho : (b.side s)[k]? = some o) (hp : o'.price = o.price) :
    (b.setSide s ((b.side s).insert k o')).CachesRight := by
  intro t
  rw [cached_setSide, h t]
  by_cases hs : s = t
  · subst hs
    unfold best
    rw [side_setSide_self, FinMap.toList_insert_of_mem ho]
    have hmem : ∀ p ∈ (b.side s).toList, p.1 = k → p.2.price = o'.price := by
      rintro ⟨a, v⟩ hm rfl
      rw [Option.some.inj ((FinMap.mem_toList.mp hm).symm.trans ho), hp]
    cases hl : (b.side s).toList with
    | nil => rfl
    | cons p l =>
      have hhead := hmem p (hl ▸ .head _)
      simp only [List.head?_cons, Option.map_some, List.map_cons]
      split
      · rename_i hk
        rw [hhead hk]
      · rfl
  · rw [best_congr (side_setSide_ne b _ hs)]

theorem CachesRight.insert {b' : OrderBook} {o : Order} (hb : b.CachesRight)
    (h : b.insert o = .ok b') : b'.CachesRight := by
  rw [insert_eq h]
  exact hb.refreshed _ _ _

theorem CachesRight.remove (hb : b.CachesRight) (id : OrderId) : (b.remove id).2.CachesRight := by
  unfold OrderBook.remove
  split
  · exact hb
  · exact hb.refreshed _ _ _

theorem CachesRight.modify {b' : OrderBook} {id : OrderId} {f : Order → Exec Order}
    (hb : b.CachesRight) (hf : ∀ o o', f o = .ok o' → o'.price = o.price)
    (h : b.modify id f = .ok b') : b'.CachesRight := by
  rcases modify_cases h with rfl | ⟨k, o, o', -, ho, hw, rfl⟩
  · exact hb
  · exact hb.written ho (hf o o' hw)

end Caches

end OrderBook

/-! ### What every run keeps -/

theorem Order.SamePlace.trans {o₁ o₂ o₃ : Order} (h : o₁.SamePlace o₂) (h' : o₂.SamePlace o₃) :
    o₁.SamePlace o₃ :=
  ⟨h'.1.trans h.1, h'.2.1.trans h.2.1, h'.2.2.1.trans h.2.2.1, h'.2.2.2.trans h.2.2.2⟩

namespace BookLog

/-- The part of the book's meaning that no price can break, and what becomes of an
order on the wrong side. -/
structure Placed (s : BookLog) : Prop where
  ids : ∀ o ∈ s.inserted, ∀ o' ∈ s.inserted, o.id = o'.id → o = o'
  /-- Entries stand on the side of the order they were inserted for, under its key. -/
  entry : ∀ (t : OrderSide) (k : OrderKey) (o : Order), (s.book.side t)[k]? = some o →
    ∃ o₀ ∈ s.inserted, o₀.SamePlace o ∧ o₀.side = t ∧ o₀.rawKey = k
  index : ∀ (id : OrderId) (k : OrderKey), s.book.orderIndex[id]? = some k →
    ∃ o₀ ∈ s.inserted, o₀.id = id ∧ o₀.rawKey = k
  /-- An order on the wrong side is never taken out. -/
  stranded : ∀ o₀ ∈ s.inserted, ¬ o₀.OnOwnSide →
    ∃ o, (s.book.side o₀.side)[o₀.rawKey]? = some o
  caches : s.book.CachesRight

/-- What holds as long as every order inserted has its own side. -/
structure Faithful (s : BookLog) : Prop where
  wf : s.book.WF
  get : ∀ id : OrderId, s.book.get id = s.live[id]?

theorem new_placed : new.Placed where
  ids o ho := absurd ho List.not_mem_nil
  entry t k o h := by cases t <;> simp [new, OrderBook.new, OrderBook.side] at h
  index id k h := by simp [new, OrderBook.new] at h
  stranded o₀ ho := absurd ho List.not_mem_nil
  caches t := by cases t <;> rfl

theorem new_faithful : new.Faithful where
  wf := OrderBook.new_wf
  get id := by simp [new, OrderBook.new, OrderBook.get]

section Step

variable {s : BookLog} {b' : OrderBook} {o : Order} {id : OrderId}
  {live : FinMap OrderId Order}

theorem Placed.insert (hs : s.Placed) (hnew : ∀ o' ∈ s.inserted, o'.id ≠ o.id)
    (h : s.book.insert o = .ok b') : Placed ⟨b', live, o :: s.inserted⟩ where
  ids := by
    intro o₁ h₁ o₂ h₂ he
    rcases List.mem_cons.mp h₁ with rfl | hmem₁
    · rcases List.mem_cons.mp h₂ with rfl | hmem₂
      · rfl
      · exact absurd he.symm (hnew _ hmem₂)
    · rcases List.mem_cons.mp h₂ with rfl | hmem₂
      · exact absurd he (hnew _ hmem₁)
      · exact hs.ids _ hmem₁ _ hmem₂ he
  entry := by
    intro t k o₁ h₁
    change (b'.side t)[k]? = some o₁ at h₁
    rw [OrderBook.insert_side h] at h₁
    split at h₁
    · rename_i ht
      rw [FinMap.get_insert] at h₁
      split at h₁
      · rename_i hk
        obtain rfl := Option.some.inj h₁
        exact ⟨o, .head _, ⟨rfl, rfl, rfl, rfl⟩, ht, hk⟩
      · obtain ⟨o₀, hmem, h₀⟩ := hs.entry _ _ _ h₁
        exact ⟨o₀, .tail _ hmem, h₀⟩
    · obtain ⟨o₀, hmem, h₀⟩ := hs.entry _ _ _ h₁
      exact ⟨o₀, .tail _ hmem, h₀⟩
  index := by
    intro a k h₁
    change b'.orderIndex[a]? = some k at h₁
    rw [OrderBook.insert_index h, FinMap.get_insert] at h₁
    split at h₁
    · rename_i ha
      exact ⟨o, .head _, ha, Option.some.inj h₁⟩
    · obtain ⟨o₀, hmem, h₀⟩ := hs.index _ _ h₁
      exact ⟨o₀, .tail _ hmem, h₀⟩
  stranded := by
    intro o₀ hmem hown
    change ∃ o₁, (b'.side o₀.side)[o₀.rawKey]? = some o₁
    rw [OrderBook.insert_side h]
    rcases List.mem_cons.mp hmem with rfl | hmem
    · exact ⟨o₀, by rw [if_pos rfl, FinMap.get_insert_self]⟩
    · obtain ⟨o₁, h₁⟩ := hs.stranded o₀ hmem hown
      split
      · rw [FinMap.get_insert]
        split
        · exact ⟨o, rfl⟩
        · exact ⟨o₁, h₁⟩
      · exact ⟨o₁, h₁⟩
  caches := hs.caches.insert h

theorem Placed.remove (hs : s.Placed) (id : OrderId) :
    Placed ⟨(s.book.remove id).2, live, s.inserted⟩ := by
  cases hk : s.book.orderIndex[id]? with
  | none =>
    rw [OrderBook.remove_none hk]
    exact ⟨hs.ids, hs.entry, hs.index, hs.stranded, hs.caches⟩
  | some k =>
    refine ⟨hs.ids, fun t k₁ o₁ h₁ => ?_, fun a k₁ h₁ => ?_, fun o₀ hmem hown => ?_, ?_⟩
    · change ((s.book.remove id).2.side t)[k₁]? = some o₁ at h₁
      rw [OrderBook.remove_side hk] at h₁
      split at h₁
      · rw [FinMap.get_erase] at h₁
        split at h₁
        · cases h₁
        · exact hs.entry _ _ _ h₁
      · exact hs.entry _ _ _ h₁
    · change (s.book.remove id).2.orderIndex[a]? = some k₁ at h₁
      rw [OrderBook.remove_index hk, FinMap.get_erase] at h₁
      split at h₁
      · cases h₁
      · exact hs.index _ _ h₁
    · obtain ⟨o₁, h₁⟩ := hs.stranded o₀ hmem hown
      refine ⟨o₁, ?_⟩
      change ((s.book.remove id).2.side o₀.side)[o₀.rawKey]? = some o₁
      rw [OrderBook.remove_side hk]
      split
      · -- only an order on its own side is looked for where it stands
        rename_i ht
        rw [FinMap.get_erase_ne, h₁]
        rintro rfl
        exact hown (Order.onOwnSide_iff.mpr ht)
      · exact h₁
    · exact hs.caches.remove id

theorem Placed.modify (hs : s.Placed) {write : Order.Write}
    (h : s.book.modify id write.run = .ok b') : Placed ⟨b', live, s.inserted⟩ := by
  rcases OrderBook.modify_cases h with rfl | ⟨k, o, o', -, ho, hw, rfl⟩
  · exact ⟨hs.ids, hs.entry, hs.index, hs.stranded, hs.caches⟩
  · have hp := write.samePlace hw
    have hside : ∀ t, (s.book.setSide k.side ((s.book.side k.side).insert k o')).side t =
        if k.side = t then (s.book.side k.side).insert k o' else s.book.side t :=
      fun t => OrderBook.side_setSide s.book _ t _
    refine ⟨hs.ids, fun t k₁ o₁ h₁ => ?_, fun a k₁ h₁ => ?_, fun o₀ hmem hown => ?_, ?_⟩
    · rw [hside] at h₁
      split at h₁
      · rename_i ht
        rw [FinMap.get_insert] at h₁
        split at h₁
        · rename_i hk
          obtain rfl := Option.some.inj h₁
          obtain ⟨o₀, hmem, hsame, h₀⟩ := hs.entry _ _ _ ho
          rw [ht, hk] at h₀
          exact ⟨o₀, hmem, hsame.trans hp, h₀⟩
        · rw [ht] at h₁
          exact hs.entry _ _ _ h₁
      · exact hs.entry _ _ _ h₁
    · rw [OrderBook.orderIndex_setSide] at h₁
      exact hs.index _ _ h₁
    · obtain ⟨o₁, h₁⟩ := hs.stranded o₀ hmem hown
      rw [hside]
      split
      · rename_i ht
        rw [FinMap.get_insert]
        split
        · exact ⟨o', rfl⟩
        · exact ⟨o₁, by rw [ht, h₁]⟩
      · exact ⟨o₁, h₁⟩
    · exact hs.caches.written ho hp.2.2.1

/-- A live order was inserted. -/
theorem Faithful.mem_inserted (hf : s.Faithful) (hs : s.Placed) (h : s.book.get id = some o) :
    ∃ o₀ ∈ s.inserted, o₀.id = id := by
  obtain ⟨hid, hmem, -⟩ := hf.wf.get_spec h
  obtain ⟨o₀, h₀, hsame, -⟩ := hs.entry _ _ _ hmem
  exact ⟨o₀, h₀, hsame.1.symm.trans hid⟩

theorem Faithful.insert (hf : s.Faithful) (hs : s.Placed)
    (hnew : ∀ o' ∈ s.inserted, o'.id ≠ o.id) (hown : o.OnOwnSide)
    (h : s.book.insert o = .ok b') :
    Faithful ⟨b', s.live.insert o.id o, o :: s.inserted⟩ := by
  have hnone : s.book.get o.id = none := by
    rw [Option.eq_none_iff_forall_not_mem]
    intro o₁ h₁
    obtain ⟨o₀, hmem, hid⟩ := hf.mem_inserted hs h₁
    exact hnew o₀ hmem hid
  obtain ⟨hwf, hget⟩ := hf.wf.insert hnone hown h
  refine ⟨hwf, fun a => ?_⟩
  change b'.get a = (s.live.insert o.id o)[a]?
  rw [hget, FinMap.get_insert, hf.get]

theorem Faithful.remove (hf : s.Faithful) (id : OrderId) :
    Faithful ⟨(s.book.remove id).2, s.live.erase id, s.inserted⟩ := by
  obtain ⟨hwf, -, hget⟩ := hf.wf.remove id
  refine ⟨hwf, fun a => ?_⟩
  change (s.book.remove id).2.get a = (s.live.erase id)[a]?
  rw [hget, FinMap.get_erase, hf.get]

theorem Faithful.modify (hf : s.Faithful) {write : Order.Write}
    (h : s.book.modify id write.run = .ok b') :
    Faithful ⟨b', writeLive s.live id write, s.inserted⟩ := by
  cases hg : s.book.get id with
  | none =>
    have hk : s.book.orderIndex[id]? = none := hf.wf.get_eq_none.mp hg
    simp only [OrderBook.modify, hk] at h
    obtain rfl := pure_inv h
    refine ⟨hf.wf, fun a => ?_⟩
    change s.book.get a = (writeLive s.live id write)[a]?
    rw [hf.get] at hg
    simp only [writeLive, hg, hf.get]
  | some o =>
    obtain ⟨o', ho', hwf, hget, -⟩ := hf.wf.modify hg (fun _ hw => write.samePlace hw) h
    refine ⟨hwf, fun a => ?_⟩
    change b'.get a = (writeLive s.live id write)[a]?
    rw [hf.get] at hg
    rw [hget]
    simp only [writeLive, hg, ho', FinMap.get_insert, hf.get]

end Step

/-- **Step lemma.** -/
theorem step_spec {config : MarketConfig} {s s' : BookLog} {op : BookOp} (hs : s.Placed)
    (hf : (∀ o ∈ s.inserted, o.OnOwnSide) → s.Faithful) (hok : Admits config s op)
    (h : step op s = .ok s') :
    s'.Placed ∧ ((∀ o ∈ s'.inserted, o.OnOwnSide) → s'.Faithful) := by
  obtain ⟨b', hb', h⟩ := bind_inv h
  obtain rfl := pure_inv h
  cases op with
  | insert o =>
    have hnew := (hok o (.head _)).1
    refine ⟨hs.insert hnew hb', fun hall => ?_⟩
    exact (hf fun o' ho' => hall o' (.tail _ ho')).insert hs hnew (hall o (.head _)) hb'
  | remove id =>
    obtain rfl := pure_inv hb'
    exact ⟨hs.remove id, fun hall => (hf hall).remove id⟩
  | getMut id write => exact ⟨hs.modify hb', fun hall => (hf hall).modify hb'⟩
  | updateSize id r =>
    obtain ⟨⟨x, b₁⟩, hb₁, hb'⟩ := bind_inv hb'
    obtain rfl := pure_inv hb'
    have hmod := OrderBook.updateSize_modify hb₁
    exact ⟨hs.modify hmod, fun hall => (hf hall).modify hmod⟩
  | removeIfFilled id =>
    obtain rfl := pure_inv hb'
    have hcases : (s.book.removeIfFilled id).2 =
        if (s.book.get id).any (·.isFilled) then (s.book.remove id).2 else s.book := by
      unfold OrderBook.removeIfFilled
      cases s.book.get id with
      | none => rfl
      | some o => simp only [Option.any_some]; split <;> rfl
    simp only [BookOp.live, BookOp.inserts, List.nil_append, hcases]
    refine ⟨?_, fun hall => ?_⟩
    · split
      · exact hs.remove id
      · exact ⟨hs.ids, hs.entry, hs.index, hs.stranded, hs.caches⟩
    · rw [(hf hall).get]
      split
      · exact (hf hall).remove id
      · exact hf hall

theorem Reachable.spec {config : MarketConfig} {s : BookLog} (h : Reachable config s) :
    s.Placed ∧ ((∀ o ∈ s.inserted, o.OnOwnSide) → s.Faithful) :=
  h.invariant (P := fun s => s.Placed ∧ ((∀ o ∈ s.inserted, o.OnOwnSide) → s.Faithful))
    ⟨new_placed, fun _ => new_faithful⟩ fun _ _ _ hs hok h => step_spec hs.1 hs.2 hok h

/-- An order on the wrong side stands in the book where no lookup finds it. -/
theorem Placed.not_represents {s : BookLog} (hs : s.Placed) {o₀ : Order} (hmem : o₀ ∈ s.inserted)
    (hown : ¬ o₀.OnOwnSide) : ¬ s.book.Represents s.live := by
  intro hr
  obtain ⟨o, ho⟩ := hs.stranded o₀ hmem hown
  obtain ⟨hlive, -, hk⟩ := (hr.sides _ _ _).mp ho
  have hid : o.id = o₀.id := (congrArg OrderKey.orderId hk).symm
  have hget : s.book.get o.id = some o := (hr.get _).trans hlive
  unfold OrderBook.get at hget
  cases hix : s.book.orderIndex[o.id]? with
  | none => simp [hix] at hget
  | some k =>
    simp only [hix] at hget
    -- the index holds the order's key, which points to the other side
    obtain ⟨o₁, hmem₁, hid₁, hk₁⟩ := hs.index _ _ hix
    obtain rfl := hs.ids _ hmem₁ _ hmem (hid₁.trans hid)
    obtain ⟨o₂, hmem₂, hsame, hside, hkey⟩ := hs.entry _ _ _ hget
    have hid₂ : o₂.id = o₁.id := congrArg OrderKey.orderId (hkey.trans hk₁.symm)
    obtain rfl := hs.ids _ hmem₂ _ hmem hid₂
    rw [← hkey] at hside
    exact hown (Order.onOwnSide_iff.mpr hside.symm)

/-- **Representation.** After any sequence of operations the book represents its live orders if
and only if every order inserted so far stands on its own side. An order that is filed on the
wrong side is never found again, and the others keep sides, index and caches in step. -/
theorem represents_iff {config : MarketConfig} {s : BookLog} (h : Reachable config s) :
    s.book.Represents s.live ↔ ∀ o ∈ s.inserted, o.OnOwnSide := by
  obtain ⟨hs, hf⟩ := h.spec
  constructor
  · intro hr o ho
    by_contra hown
    exact hs.not_represents ho hown hr
  · intro hall
    exact (hf hall).wf.represents (hf hall).get hs.caches

/-- A bid for one unit. -/
def bidAt (id : OrderId) (price : Int) : Order := Order.new id 7 {
  marketId := 0, side := .buy, price := ⟨price, 8⟩, size := ⟨100000000, 8⟩,
  orderType := .limit .gtc, reduceOnly := false, clientOrderId := none, triggerPrice := none,
  triggerDirection := none } 1000

/-- A bid at 65000, filled by less than half and then by the rest. -/
def bidLife : Exec BookLog :=
  [.insert (bidAt 1 6500000000000), .getMut 1 (.fill ⟨40000000, 8⟩), .updateSize 1 ⟨0, 8⟩,
    .removeIfFilled 1, .insert (bidAt 2 6499990000000)].foldlM
    (fun s op => if Admits .btcPerp s op then step op s else .error .panic) new

theorem represents_iff_bidLife : ∃ s, bidLife = .ok s ∧ s.live[1]? = none ∧
    s.live[2]? = some (bidAt 2 6499990000000) ∧ s.book.Represents s.live := by
  obtain ⟨s, hs, ht⟩ := exists_of_test (x := bidLife)
    (p := fun s => s.live[1]? = none ∧ s.live[2]? = some (bidAt 2 6499990000000) ∧
      ∀ o ∈ s.inserted, o.OnOwnSide) (by decide +kernel)
  obtain ⟨h1, h2, hall⟩ := of_decide_eq_true ht
  exact ⟨s, hs, h1, h2, (represents_iff (.of_checked inferInstance hs)).mpr hall⟩

/-- A bid at price zero, which is on every tick. -/
def zeroBid : Order := bidAt 1 0

/-- Inserted, it is the best bid, and neither `get` nor `remove` finds it. -/
theorem zero_bid_stranded : ∃ s, Reachable .btcPerp s ∧ s.live[1]? = some zeroBid ∧
    s.book.bestBid = some zeroBid ∧ s.book.get 1 = none ∧ (s.book.remove 1).1 = none ∧
    ¬ s.book.Represents s.live := by
  obtain ⟨s, hstep, ht⟩ := exists_of_test (x := step (.insert zeroBid) new)
    (p := fun s => s.live[1]? = some zeroBid ∧ s.book.bestBid = some zeroBid ∧
      s.book.get 1 = none ∧ (s.book.remove 1).1 = none) (by decide +kernel)
  obtain ⟨hlive, hbest, hget, hremove⟩ := of_decide_eq_true ht
  have hok : Admits .btcPerp new (.insert zeroBid) := by
    intro o ho
    obtain rfl := List.mem_singleton.mp ho
    exact ⟨fun o' ho' => absurd ho' List.not_mem_nil, by decide⟩
  refine ⟨s, .tail _ .refl hok hstep, hlive, hbest, hget, hremove, fun hr => ?_⟩
  have := (hr.get 1).symm.trans hget
  rw [hlive] at this
  cases this

end BookLog

end Hypercore
