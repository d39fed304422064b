import Hypercore.Engine.Ledger
import Hypercore.Engine.Stores
/-!
# Hypercore.Engine.StoresRun

The three places that record a resting order agree along every clean run.

**One submission.** Matching leaves the book as the auction says
(`matchAgainst_walk`). `syncMakers` then brings the orders map to the same state
(`syncMakers_spec`), provided the auction dropped nothing, and what is left of
the order is added to all three places. `Clean` is what a submission has to avoid;
`Stores.step` is the step lemma and `ReachableWith.stores` the run lemma.
-/

namespace Hypercore

open Exec Int128

namespace EngineState

/-! ### Adding what is left of an order -/

theorem putRecord_only (s : EngineState) (m : MarketId) (o : Order) :
    ∃ orders, s.putRecord m o = { s with orders } := by
  unfold putRecord
  split
  · exact ⟨s.orders, rfl⟩
  · exact ⟨_, rfl⟩

theorem both_putRecord (s : EngineState) (m k : MarketId) (o : Order) :
    ((s.putRecord m o).orders[k]?).isSome = (s.orders[k]?).isSome := by
  unfold putRecord
  cases hm : s.orders[m]? with
  | none => rfl
  | some os =>
    dsimp only
    rw [FinMap.get_insert]
    split
    · rename_i hk
      rw [← hk, hm]
      rfl
    · rfl

/-- How the index changes when an id is appended for an account. -/
theorem indexCount_append (s : EngineState) (a c : AccountAddress) (m k : MarketId)
    (id i : OrderId) : (s.setOrderIds a m (s.orderIds a m ++ [id])).indexCount c k i =
      s.indexCount c k i + if a = c ∧ m = k ∧ id = i then 1 else 0 := by
  unfold indexCount
  rw [orderIds_setOrderIds]
  by_cases hk : a = c ∧ m = k
  · obtain ⟨rfl, rfl⟩ := hk
    rw [if_pos ⟨rfl, rfl⟩, List.count_append, List.count_singleton]
    simp only [true_and, beq_iff_eq]
  · rw [if_neg hk, if_neg (fun h => hk ⟨h.1, h.2.1⟩), Nat.add_zero]

/-- Adding an order that its book already has and the orders map does not. -/
theorem addOrder_spec {s s' : EngineState} {o : Order} (hb : BooksOk s) (hr : Records s)
    (hbook : s.bookGet o.marketId o.id = some o) (hnew : s.getOrder o.marketId o.id = none)
    (hid : o.id < s.nextOrderId) (h : s.addOrder o = .ok s') :
    BooksKept s s' ∧ ∀ k i, s'.getOrder k i =
      if o.marketId = k ∧ o.id = i then some o else s.getOrder k i := by
  obtain ⟨b, hm, hg⟩ := Option.bind_eq_some_iff.mp hbook
  have hsome : (s.orders[o.marketId]?).isSome := by
    rw [hb.both, hm]
    rfl
  obtain ⟨s₁, h1, h⟩ := bind_inv h
  obtain ⟨orders, hput⟩ := putRecord_only s o.marketId o
  have hget₀ := fun k i => getOrder_putRecord s o.marketId k i o
  have hboth₀ := fun k => both_putRecord s o.marketId k o
  rw [hput] at h1 hget₀ hboth₀
  unfold insertInBook at h1
  simp only [hm] at h1
  obtain ⟨b', hb', h1⟩ := bind_inv h1
  obtain ⟨hwf, hget⟩ := (hb.wf _ _ hm).insert_again hg hb'
  have hs' : s'.orders = orders ∧ s'.orderbooks = s.orderbooks.insert o.marketId b' ∧
      s'.accountOrders = (s.setOrderIds o.owner o.marketId
        (s.orderIds o.owner o.marketId ++ [o.id])).accountOrders ∧
      s'.nextOrderId = s.nextOrderId := by
    rw [← pure_inv h, ← pure_inv h1]
    exact ⟨rfl, rfl, rfl, rfl⟩
  obtain ⟨horders, hbooks, hindex, hnext⟩ := hs'
  have hget' : ∀ k i, s'.getOrder k i =
      if o.marketId = k ∧ o.id = i then some o else s.getOrder k i := by
    intro k i
    have := hget₀ k i
    simp only [hsome, and_true] at this
    rw [← this]
    simp only [EngineState.getOrder, horders]
  refine ⟨⟨⟨fun k c hc => ?_, fun k => ?_⟩, ⟨fun k i o' ho' => ?_, fun a k i => ?_⟩,
    fun k i => ?_, hnext⟩, hget'⟩
  · rw [hbooks, FinMap.get_insert] at hc
    split at hc
    · obtain rfl := Option.some.inj hc
      exact hwf
    · exact hb.wf k c hc
  · rw [horders, hbooks, hboth₀, hb.both, FinMap.get_insert]
    split
    · rename_i hk
      rw [← hk, hm]
      rfl
    · rfl
  · rw [hnext]
    rw [hget'] at ho'
    split at ho'
    · rename_i hk
      obtain rfl := Option.some.inj ho'
      exact ⟨hk.1, hk.2 ▸ hid⟩
    · exact hr.place k i o' ho'
  · -- the new id is counted once for its owner, whose list did not have it
    have hcount : s'.indexCount a k i =
        s.indexCount a k i + if o.owner = a ∧ o.marketId = k ∧ o.id = i then 1 else 0 := by
      rw [← indexCount_append]
      simp only [indexCount, orderIds, hindex]
    rw [hcount, hr.index]
    unfold ownedBy
    rw [hget']
    by_cases hk : o.marketId = k ∧ o.id = i
    · obtain ⟨rfl, rfl⟩ := hk
      simp [hnew]
    · rw [if_neg hk, if_neg (fun hc : o.owner = a ∧ _ => hk hc.2), Nat.add_zero]
  · unfold bookGet
    rw [hbooks, FinMap.get_insert]
    split
    · rename_i hk
      rw [← hk, hm, Option.bind_some, Option.bind_some, hget]
    · rfl

/-! ### Bringing the orders map in line with the book -/

theorem mem_makerIds {fills : List Fill} {id : OrderId} :
    id ∈ Engine.makerIds fills ↔ ∃ f ∈ fills, f.makerOrderId = id := by
  have h : ∀ (l seen : List OrderId), id ∈ l.foldl
      (fun seen id => if id ∈ seen then seen else seen ++ [id]) seen ↔ id ∈ seen ∨ id ∈ l := by
    intro l
    induction l with
    | nil => simp
    | cons a l ih =>
      intro seen
      rw [List.foldl_cons, ih]
      split
      · rename_i ha
        rw [List.mem_cons]
        constructor
        · rintro (h | h)
          · exact .inl h
          · exact .inr (.inr h)
        · rintro (h | rfl | h)
          · exact .inl h
          · exact .inl ha
          · exact .inr h
      · rw [List.mem_append, List.mem_singleton, List.mem_cons, or_assoc]
  rw [Engine.makerIds, h, List.mem_map]
  simp

/-- After the synchronisation a maker's order is gone from the orders map exactly when
it is gone from the book, and otherwise has the remaining size the book has. -/
theorem syncMakers_spec {s : EngineState} {m : MarketId} {b : OrderBook} (fills : List Fill)
    (hb : BooksOk s) (hr : Records s) (hm : s.orderbooks[m]? = some b) :
    let s' := Engine.syncMakers s m fills
    BooksKept s s' ∧ ∀ k i, s'.getOrder k i = if m = k ∧ i ∈ Engine.makerIds fills then
      (b.get i).bind fun o => (s.getOrder k i).map (restated o.remainingSize)
    else s.getOrder k i := by
  have hbook : ∀ i, s.bookGet m i = b.get i := fun i => by simp only [bookGet, hm, Option.bind_some]
  unfold Engine.syncMakers getOrderbook
  rw [hm]
  dsimp only
  set ids := Engine.makerIds fills
  obtain ⟨h1, h4⟩ := removeOrders_spec (m := m)
    (ids.filter fun id => (b.get id).isNone) hb hr fun i hi => by
      rw [hbook]
      simpa using (List.mem_filter.mp hi).2
  obtain ⟨g1, g4⟩ := updateRemainings_spec (m := m)
    (ids.filterMap fun id => (b.get id).map fun o => (id, o.remainingSize))
    (fun i => ((b.get i).map (·.remainingSize)).getD Decimal.default) (by
      intro p hp
      obtain ⟨i, -, hi⟩ := List.mem_filterMap.mp hp
      obtain ⟨o, ho, rfl⟩ := Option.map_eq_some_iff.mp hi
      simp [ho]) h1.books h1.records
  refine ⟨h1.trans g1, fun k i => (g4 k i).trans ?_⟩
  have hmem :
      i ∈ (ids.filterMap fun id => (b.get id).map fun o => (id, o.remainingSize)).map (·.1) ↔
      i ∈ ids ∧ (b.get i).isSome := by
    simp only [List.mem_map, List.mem_filterMap, Option.map_eq_some_iff]
    constructor
    · rintro ⟨p, ⟨j, hj, o, ho, rfl⟩, rfl⟩
      exact ⟨hj, by simp [ho]⟩
    · rintro ⟨hi, hs⟩
      obtain ⟨o, ho⟩ := Option.isSome_iff_exists.mp hs
      exact ⟨(i, o.remainingSize), ⟨i, hi, o, ho, rfl⟩, rfl⟩
  rw [h4]
  simp only [hmem, List.mem_filter]
  by_cases hk : m = k ∧ i ∈ ids
  · cases b.get i <;> simp [hk]
  · rw [if_neg hk, if_neg (fun hc => hk ⟨hc.1, hc.2.1⟩), if_neg (fun hc => hk ⟨hc.1, hc.2.1⟩)]

end EngineState

/-! ### Clean submissions -/

namespace Engine

open EngineState MatchingEngine

/-- What the end of an order must avoid, in terms of its auction: removing one of the
owner's own orders, being rejected after fills, and resting at a price that is
looked up on the other side. -/
structure CleanMatch (order : Order) (w : Auction.Outcome Order) : Prop where
  dropped : w.dropped = []
  rejected : order.postOnly ∨ order.isFok → w.taken = [] ∨ w.unfilled = 0
  rests : order.shouldRest → w.unfilled ≠ 0 → order.OnOwnSide

variable {order : Order} {e e' : Engine} {market : Market}
variable {book book₁ book₂ : OrderBook} {updated : Order} {fills fills' : List Fill}
  {r : Except Error (Order × List Fill)}

/-- **Where the map catches up.** With nothing dropped, restating the makers from any
book that agrees with the matched one on them gives the matched book. -/
theorem restated_eq (hb : book.WF) (hdrop : (auction order book).dropped = [])
    (hmatched : ∀ id, book₁.get id = (book.get id).bind
      ((auction order book).leaves (rules order (noCross order.side)) shrunk)) {ids : List OrderId}
    (hids : ∀ id, id ∈ ids ↔ ∃ p ∈ (auction order book).taken, p.1.id = id)
    (hsame : ∀ id ∈ ids, book₂.get id = book₁.get id) (id : OrderId) :
    (if id ∈ ids then (book₂.get id).bind fun o => (book.get id).map (restated o.remainingSize)
      else book.get id) = book₁.get id := by
  cases hg : book.get id with
  | none =>
    rw [hmatched, hg]
    split
    · cases book₂.get id <;> rfl
    · rfl
  | some a =>
    have ha : a.id = id := hb.get_id hg
    have hleaves : book₁.get id =
        (auction order book).leaves (rules order (noCross order.side)) shrunk a := by
      rw [hmatched, hg, Option.bind_some]
    simp only [Auction.Outcome.leaves, hdrop, List.not_mem_nil, if_false] at hleaves
    cases hf : (auction order book).taken.find? (·.1 = a) with
    | none =>
      have hnot : id ∉ ids := by
        intro hid
        obtain ⟨p, hp, hpid⟩ := (hids id).mp hid
        have hpg := (auction_mem hb).1 p hp
        rw [hpid, hg] at hpg
        have := List.find?_eq_none.mp hf p hp
        simp only [Option.some.inj hpg, decide_true, not_true] at this
      rw [if_neg hnot, hleaves]
      simp only [hf]
    | some p =>
      have hpa : p.1 = a := by simpa using List.find?_some hf
      have hid : id ∈ ids := (hids id).mpr ⟨p, List.mem_of_find?_eq_some hf, by rw [hpa, ha]⟩
      rw [if_pos hid, hsame id hid, hleaves]
      simp only [hf]
      split <;> rfl

/-- The state after matching and synchronisation: the orders map has the matched book,
the book may also have the new order. -/
theorem syncMakers_matched {s : EngineState} (hs : Stores s)
    (hm : s.orderbooks[order.marketId]? = some book) (hdrop : (auction order book).dropped = [])
    (hmatched : ∀ id, book₁.get id = (book.get id).bind
      ((auction order book).leaves (rules order (noCross order.side)) shrunk)) (hwf : book₂.WF)
    (hsame : ∀ id, (book.get id).isSome → book₂.get id = book₁.get id) :
    let fills := (auction order book).taken.map fun p => mkFill order p.1 p.2
    let s' := syncMakers (s.setOrderbook order.marketId book₂) order.marketId fills
    BooksKept (s.setOrderbook order.marketId book₂) s' ∧
      ∀ k i, s'.getOrder k i = if order.marketId = k then book₁.get i else s.bookGet k i := by
  intro fills s'
  have hb := hs.books.wf _ _ hm
  have hself : (s.setOrderbook order.marketId book₂).orderbooks[order.marketId]? = some book₂ :=
    FinMap.get_insert_self _ _ _
  have hbooks : BooksOk (s.setOrderbook order.marketId book₂) := by
    refine ⟨fun k c hc => ?_, fun k => ?_⟩
    · simp only [setOrderbook, FinMap.get_insert] at hc
      split at hc
      · obtain rfl := Option.some.inj hc
        exact hwf
      · exact hs.books.wf k c hc
    · simp only [setOrderbook, FinMap.get_insert]
      split
      · rename_i hk
        rw [← hk, hs.books.both, hm]
        rfl
      · exact hs.books.both k
  obtain ⟨h1, h4⟩ := syncMakers_spec fills hbooks ⟨hs.records.place, hs.records.index⟩ hself
  refine ⟨h1, fun k i => ?_⟩
  have hids : ∀ id, id ∈ makerIds fills ↔ ∃ p ∈ (auction order book).taken, p.1.id = id := by
    intro id
    rw [mem_makerIds]
    constructor
    · rintro ⟨f, hf, rfl⟩
      obtain ⟨p, hp, rfl⟩ := List.mem_map.mp hf
      exact ⟨p, hp, rfl⟩
    · rintro ⟨p, hp, rfl⟩
      exact ⟨_, List.mem_map_of_mem hp, rfl⟩
  have hmakers : ∀ id ∈ makerIds fills, book₂.get id = book₁.get id := by
    intro id hid
    obtain ⟨p, hp, rfl⟩ := (hids id).mp hid
    refine hsame _ ?_
    rw [(auction_mem hb).1 p hp]
    rfl
  have hold : ∀ k i, (s.setOrderbook order.marketId book₂).getOrder k i = s.bookGet k i :=
    fun k i => hs.agree k i
  rw [h4, hold]
  by_cases hk : order.marketId = k
  · subst hk
    have hgo : s.bookGet order.marketId i = book.get i := by
      simp only [bookGet, hm, Option.bind_some]
    rw [if_pos rfl, hgo, ← restated_eq hb hdrop hmatched hids hmakers i]
    simp only [true_and]
  · rw [if_neg hk, if_neg (fun hc => hk hc.1)]

/-- Settling an order that does not go on resting writes the stores only through the
synchronisation. -/
theorem settleOrder_plain (hrest : (!updated.isFilled && updated.shouldRest) = false)
    (h : e.settleOrder market updated fills = .ok (fills', e')) :
    OrdersKept (syncMakers e.state updated.marketId fills) e'.state := by
  obtain ⟨e₁, hfills, ⟨rfl, -⟩ | ⟨s, -, -, hrest'⟩⟩ := settleOrder_cases h
  · exact .of_fill (settleFills_only hfills).1
  · exact absurd (hrest.symm.trans hrest') Bool.false_ne_true

/-- Settling an order that goes on resting adds it last. -/
theorem settleOrder_rests (hrest : (!updated.isFilled && updated.shouldRest) = true)
    (h : e.settleOrder market updated fills = .ok (fills', e')) :
    ∃ s, OrdersKept (syncMakers e.state updated.marketId fills) s ∧
      s.addOrder updated = .ok e'.state := by
  obtain ⟨e₁, hfills, ⟨-, hrest'⟩ | ⟨s, hadd, rfl, -⟩⟩ := settleOrder_cases h
  · exact absurd (hrest'.symm.trans hrest) Bool.false_ne_true
  · exact ⟨_, .of_fill (settleFills_only hfills).1, hadd⟩

/-- An execution that stays clean keeps the three places in agreement. -/
theorem executeOrder_stores (hs : Stores e.state) (hid : order.id < e.state.nextOrderId)
    (hnew : e.state.bookGet order.marketId order.id = none)
    (hclean : ∀ book, e.state.getOrderbook order.marketId = some book →
      CleanMatch order (auction order book)) (h : e.executeOrder market order = .ok (r, e')) :
    Stores e'.state := by
  unfold executeOrder at h
  cases hm : e.state.getOrderbook order.marketId with
  | none =>
    simp only [hm] at h
    obtain ⟨-, rfl⟩ := pair_inv h
    exact hs
  | some book =>
    simp only [hm] at h
    obtain ⟨⟨r₁, book₂⟩, hp, h⟩ := bind_inv h
    have hb := hs.books.wf _ _ hm
    have hc := hclean book hm
    have hnone : book.get order.id = none := by
      unfold getOrderbook at hm
      simpa only [bookGet, hm, Option.bind_some] using hnew
    obtain ⟨order₁, book₁, r₂, hfrom, hval, hwf₁, hget₁, hun, rfl⟩ := processOrder_spec hb hp
    have hmk : order₁.marketId = order.marketId := by rw [hfrom.1]
    have hunfilled : order₁.isFilled = false → (auction order book).unfilled ≠ 0 := by
      intro hf hz
      rw [Order.isFilled, Bool.eq_false_iff] at hf
      exact hf (Decimal.isZero_iff.mpr (hval.trans hz))
    -- endings that add nothing to the matched book
    have hplain : ∀ updated : Order, updated.marketId = order.marketId →
        (!updated.isFilled && updated.shouldRest) = false →
        ∀ e₁ fills', settleOrder { e with state := e.state.setOrderbook order.marketId book₁ }
          market updated ((auction order book).taken.map fun p => mkFill order p.1 p.2) =
            .ok (fills', e₁) → Stores e₁.state := by
      intro updated hmu hrest e₁ fills' hset
      have hkept := settleOrder_plain hrest hset
      rw [hmu] at hkept
      obtain ⟨h1, h2⟩ := syncMakers_matched hs hm hc.dropped hget₁ hwf₁ (fun _ _ => rfl)
      refine hkept.stores ⟨h1.books, h1.records, fun k i => ?_⟩
      rw [h2, h1.bookGet, bookGet_setOrderbook]
    rcases handleUnfilled_cases hun with ⟨hfull, rfl, rfl⟩ | ⟨hnf, hfills, -, hrej⟩ |
      ⟨hnf, hrests, rfl, hins⟩ | ⟨hnf, hcanc, rfl, rfl⟩
    · -- filled
      obtain ⟨⟨fills', e₁⟩, hset, h⟩ := bind_inv h
      obtain ⟨-, rfl⟩ := pair_inv h
      exact hplain order₁ hmk (by simp [hfull]) _ _ hset
    · -- rejected after fills
      have hflag : order.postOnly ∨ order.isFok := by
        rcases hrej with ⟨hp, -⟩ | ⟨hf, -⟩
        · left
          rw [hfrom.1] at hp
          exact hp
        · right
          rw [hfrom.1] at hf
          exact hf
      rcases hc.rejected hflag with ht | hz
      · exact absurd (by rw [ht]; rfl) hfills
      · exact absurd hz (hunfilled hnf)
    · -- the rest goes on the book
      obtain ⟨⟨fills', e₁⟩, hset, h⟩ := bind_inv h
      obtain ⟨-, rfl⟩ := pair_inv h
      have hid₁ : order₁.id = order.id := by rw [hfrom.1]
      have hown : order₁.OnOwnSide := by
        rw [hfrom.1] at hrests ⊢
        exact hc.rests hrests (hunfilled hnf)
      obtain ⟨hwf₂, hget₂⟩ := hwf₁.insert (by rw [hget₁, hid₁, hnone]; rfl) hown hins
      obtain ⟨h1, h2⟩ := syncMakers_matched hs hm hc.dropped hget₁ hwf₂ (by
        intro id hsome
        rw [hget₂, if_neg]
        rintro rfl
        rw [hid₁, hnone] at hsome
        exact absurd hsome (by simp))
      obtain ⟨s, hkept, hadd⟩ := settleOrder_rests (by simp [hnf, hrests]) hset
      rw [hmk] at hkept
      have hbook : ∀ k i, s.bookGet k i =
          if order.marketId = k then book₂.get i else e.state.bookGet k i := by
        intro k i
        rw [hkept.bookGet, h1.bookGet, bookGet_setOrderbook]
      have hmap : ∀ k i, s.getOrder k i =
          if order.marketId = k then book₁.get i else e.state.bookGet k i := by
        intro k i
        rw [hkept.getOrder, h2]
      obtain ⟨h3, h4⟩ := addOrder_spec (hkept.booksOk h1.books) (hkept.records h1.records)
        (by rw [hbook, hmk, if_pos rfl, hget₂, if_pos rfl])
        (by rw [hmap, hmk, if_pos rfl, hget₁, hid₁, hnone]; rfl)
        (by rw [hid₁, hkept.nextOrderId, h1.nextOrderId]; exact hid) hadd
      refine ⟨h3.books, h3.records, fun k i => ?_⟩
      rw [h4, h3.bookGet, hbook, hmap, hmk]
      by_cases hk : order.marketId = k
      · simp only [hk, true_and, if_true, hget₂]
      · simp only [hk, false_and, if_false]
    · -- the rest is cancelled
      obtain ⟨⟨fills', e₁⟩, hset, h⟩ := bind_inv h
      obtain ⟨-, rfl⟩ := pair_inv h
      refine hplain { order₁ with status := .canceled } hmk ?_ _ _ hset
      rw [show Order.shouldRest { order₁ with status := .canceled } = false from hcanc]
      simp

/-- The submission passes every check before matching. -/
def admits (e : Engine) (account : AccountAddress) (request : OrderRequest) : Bool :=
  match e.prepareOrder account request with
  | .ok (.ok _, _) => true
  | _ => false

/-- A submission that would be matched has a clean end. -/
def Clean (e : Engine) (account : AccountAddress) (request : OrderRequest) : Prop :=
  e.admits account request → request.triggerPrice = none →
    ∀ book ∈ e.state.getOrderbook request.marketId,
      let order := Order.new e.state.nextOrderId account request 0
      CleanMatch order (auction order book)

instance (order : Order) (w : Auction.Outcome Order) : Decidable (CleanMatch order w) :=
  decidable_of_iff (w.dropped = [] ∧
      (order.postOnly ∨ order.isFok → w.taken = [] ∨ w.unfilled = 0) ∧
      (order.shouldRest → w.unfilled ≠ 0 → order.OnOwnSide))
    ⟨fun h => ⟨h.1, h.2.1, h.2.2⟩, fun h => ⟨h.dropped, h.rejected, h.rests⟩⟩

instance (e : Engine) (a : AccountAddress) (q : OrderRequest) : Decidable (e.Clean a q) :=
  inferInstanceAs (Decidable (_ → _ → ∀ book ∈ _, CleanMatch _ _))

/-- **Submission.** -/
theorem submitOrder_stores {a : AccountAddress} {q : OrderRequest} {t : Timestamp}
    (hs : Stores e.state) (hclean : e.Clean a q) (h : e.submitOrder a q t = .ok (r, e')) :
    Stores e'.state := by
  obtain ⟨accounts, positions, hopen⟩ := openAccount_only e a q.marketId
  obtain ⟨_, _, henter⟩ := enter_only e a q.marketId
  rcases submitOrder_cases h with ⟨rfl | rfl, -⟩ | ⟨market, -, -, hprep, -, hend⟩
  · exact hs
  · rw [hopen]
    exact hs.of_same rfl rfl rfl rfl
  have hs₁ : Stores (e.enter a q.marketId).state := by
    rw [henter]
    exact ⟨⟨hs.books.wf, hs.books.both⟩,
      ⟨fun m id o ho => ⟨(hs.records.place m id o ho).1,
        Nat.lt_succ_of_lt (hs.records.place m id o ho).2⟩, hs.records.index⟩, hs.agree⟩
  rcases hend with ⟨-, -, rfl⟩ | ⟨htrig, h⟩
  · exact (OrdersKept.of_triggers (addTriggerOrder_only _)).stores hs₁
  · rw [henter] at h hs₁
    refine executeOrder_stores hs₁ (Nat.lt_succ_self _) ?_ (fun book hbook => ?_) h
    · -- the id is new: every id in use is smaller
      show e.state.bookGet q.marketId e.state.nextOrderId = none
      cases hg : e.state.bookGet q.marketId e.state.nextOrderId with
      | none => rfl
      | some o =>
        rw [← hs.agree] at hg
        exact absurd (hs.records.place _ _ _ hg).2 (lt_irrefl _)
    · have hc := hclean (by simp only [admits, hprep]) htrig book hbook
      exact ⟨hc.dropped, hc.rejected, hc.rests⟩

/-! ### Runs -/

/-- **Step lemma.** An operation whose submissions are clean keeps the three places in
agreement. -/
theorem step_stores {op : Op} (hs : Stores e.state) (hclean : SubmitsMeet Clean e op)
    (h : step op e = .ok e') : Stores e'.state := by
  have hupkeep : ∀ {s}, UpkeepOnly e.state s → Stores s :=
    fun honly => (OrdersKept.of_upkeep honly).stores hs
  refine step_rule (fun _ m id hs => hs.removeOrder m id) hs hclean ?_ ?_ ?_ ?_ ?_ h
  · exact fun _ _ _ _ _ _ hs hc h => submitOrder_stores hs hc h
  · exact fun _ _ hs ht => (OrdersKept.of_triggers ht).stores hs
  · exact fun _ _ _ => hs.of_same rfl rfl rfl rfl
  · exact fun _ _ _ h => hupkeep (processFunding_only h).state
  · exact fun _ _ _ _ h => hupkeep (processLiquidations_only h).state

/-- A fresh engine has books and maps, and no orders. -/
theorem Fresh.stores (h : Fresh e) : Stores e.state := by
  have hempty : BooksOk e.state ∧ (∀ m id, e.state.getOrder m id = none) ∧
      (∀ m id, e.state.bookGet m id = none) ∧ e.state.accountOrders = ∅ := by
    refine h.rule (P := fun s => BooksOk s ∧ (∀ m id, s.getOrder m id = none) ∧
      (∀ m id, s.bookGet m id = none) ∧ s.accountOrders = ∅)
      ⟨⟨fun m b hm => ?_, fun m => ?_⟩, fun m id => ?_, fun m id => ?_, rfl⟩ ?_
    · simp [EngineState.new] at hm
    · simp [EngineState.new]
    · simp [EngineState.new, getOrder]
    · simp [EngineState.new, bookGet]
    rintro s config price t ⟨hb, ho, hg, ha⟩
    refine ⟨⟨fun m b hm => ?_, fun m => ?_⟩, fun m id => ?_, fun m id => ?_, ha⟩
    · simp only [EngineState.addMarket, FinMap.get_insert] at hm
      split at hm
      · obtain rfl := Option.some.inj hm
        exact OrderBook.new_wf
      · exact hb.wf m b hm
    · simp only [EngineState.addMarket, FinMap.get_insert]
      split
      · rfl
      · exact hb.both m
    · simp only [EngineState.addMarket, getOrder, FinMap.get_insert]
      split
      · simp
      · exact ho m id
    · simp only [EngineState.addMarket, bookGet, FinMap.get_insert]
      split
      · simp [OrderBook.get, OrderBook.new]
      · exact hg m id
  obtain ⟨hb, ho, hg, ha⟩ := hempty
  refine ⟨hb, ⟨fun m id o h => ?_, fun a m id => ?_⟩, fun m id => by rw [ho, hg]⟩
  · rw [ho] at h
    exact absurd h (by simp)
  · simp [indexCount, orderIds, ha, ownedBy, ho]

end Engine

namespace EngineState

/-- The orders of a market in the orders map. -/
def mapOrders (s : EngineState) (m : MarketId) : List Order :=
  ((s.orders[m]?).getD ∅).toList.map (·.2)

variable {s : EngineState} {m : MarketId}

theorem getD_orders (id : OrderId) (o : Order) :
    ((s.orders[m]?).getD ∅)[id]? = some o ↔ s.getOrder m id = some o := by
  unfold getOrder
  cases s.orders[m]? <;> simp

/-- The orders of a market in its book. -/
def bookOrders (s : EngineState) (m : MarketId) : List Order :=
  ((s.orderbooks[m]?).map (·.getAllOrders)).getD []

/-- One market's orders are the same in the orders map and the book, and each is in
the account index of its owner exactly once. -/
structure Agreement (s : EngineState) (m : MarketId) : Prop where
  sameOrders : (s.mapOrders m).Perm (s.bookOrders m)
  indexed : ∀ o ∈ s.mapOrders m, (s.orderIds o.owner m).count o.id = 1

/-- The recorded orders of a market, when records are kept under their own ids. -/
theorem mem_mapOrders {o : Order} (hid : ∀ id o, s.getOrder m id = some o → o.id = id) :
    o ∈ s.mapOrders m ↔ s.getOrder m o.id = some o := by
  unfold mapOrders
  rw [FinMap.mem_values (g := Order.id) fun id o h => hid id o ((getD_orders id o).mp h),
    getD_orders]

theorem nodup_mapOrders (hid : ∀ id o, s.getOrder m id = some o → o.id = id) :
    (s.mapOrders m).Nodup :=
  FinMap.nodup_values (g := Order.id) fun id o h => hid id o ((getD_orders id o).mp h)

theorem Stores.agreement (hs : Stores s) (m : MarketId) : Agreement s m := by
  have hid : ∀ id o, s.getOrder m id = some o → o.id = id := by
    intro id o ho
    rw [hs.agree] at ho
    obtain ⟨b, hm, hg⟩ := Option.bind_eq_some_iff.mp ho
    exact (hs.books.wf m b hm).get_id hg
  have hmem : ∀ o, o ∈ s.mapOrders m ↔ s.getOrder m o.id = some o := fun o => mem_mapOrders hid
  refine ⟨?_, fun o ho => ?_⟩
  · have hnodup := nodup_mapOrders hid
    unfold bookOrders
    cases hm : s.orderbooks[m]? with
    | none =>
      have hnone : s.mapOrders m = [] := by
        refine List.eq_nil_iff_forall_not_mem.mpr fun o ho => ?_
        rw [hmem, hs.agree, bookGet, hm] at ho
        exact absurd ho (by simp)
      rw [hnone]
      rfl
    | some b =>
      have hb := hs.books.wf m b hm
      show (s.mapOrders m).Perm b.getAllOrders
      rw [List.perm_ext_iff_of_nodup hnodup hb.nodup_getAllOrders]
      intro o
      rw [hmem, hs.agree, bookGet, hm, Option.bind_some, hb.mem_getAllOrders]
  · have h := hs.records.index o.owner m o.id
    unfold ownedBy at h
    rw [(hmem o).mp ho] at h
    simpa [indexCount] using h

end EngineState

namespace Engine

open EngineState

/-- **Run theorem.** Along every run whose submissions are clean, in every market the orders map,
the book and the account index agree. `Stores` is the invariant: where the auction drops no
resting order, the maps follow the book. -/
theorem stores_agree_of_clean_run {e : Engine} (h : ReachableWith (SubmitsMeet Clean) e)
    (m : MarketId) : Agreement e.state m :=
  (h.induction (P := fun e => Stores e.state) (fun _ => Fresh.stores)
    fun _ _ _ hs hc hstep => step_stores hs hc hstep).agreement m

/-- Account 1 sells 0.1 BTC, of which account 2 takes 0.04. -/
def partFill : List Op := [.deposit 1 100000000000, .deposit 2 100000000000,
  .placeOrder 1 (limitOrder .sell .gtc 6500000000000 10000000) 5,
  .placeOrder 2 (limitOrder .buy .gtc 6500000000000 4000000) 6]

/-- A clean run with a partial fill: 0.06 BTC of the sell still rest, the same in all stores. -/
theorem stores_agree_resting : ∃ e, ReachableWith (SubmitsMeet Clean) e ∧
    (e.state.mapOrders 0).map (fun o => (o.id, o.remainingSize.value)) = [(1, 6000000)] ∧
    Agreement e.state 0 := by
  obtain ⟨e, he, htest⟩ := exists_of_test (x := btcChecked (SubmitsMeet Clean) none partFill)
    (p := fun e => decide
      ((e.state.mapOrders 0).map (fun o => (o.id, o.remainingSize.value)) = [(1, 6000000)]))
    (by decide +kernel)
  have hreach := btcChecked_reachableWith he
  exact ⟨e, hreach, of_decide_eq_true htest, stores_agree_of_clean_run hreach 0⟩

/-- Self-trade prevention takes an order off the book only: account 1 sells, then
sends a buy that meets its own order. -/
theorem stores_disagree_after_self_trade :
    ∃ e, Reachable e ∧ (e.state.mapOrders 0).map (·.id) = [1] ∧ e.state.bookOrders 0 = [] ∧
      ¬ Agreement e.state 0 := by
  obtain ⟨e, he, htest⟩ := exists_of_test (x := btcRun none [.deposit 1 100000000000,
      .placeOrder 1 (limitOrder .sell .gtc 6500000000000 10000000) 5,
      .placeOrder 1 (limitOrder .buy .ioc 6500000000000 10000000) 6])
    (p := fun e => decide ((e.state.mapOrders 0).map (·.id) = [1]) &&
      decide (e.state.bookOrders 0 = [])) (by decide +kernel)
  simp only [Bool.and_eq_true, decide_eq_true_eq] at htest
  refine ⟨e, btcRun_reachable he, htest.1, htest.2, fun h => ?_⟩
  have hlen := congrArg List.length htest.1
  have := h.sameOrders.length_eq
  rw [htest.2] at this
  simp only [List.length_map, List.length_cons, List.length_nil] at hlen this
  omega

end Engine

end Hypercore
