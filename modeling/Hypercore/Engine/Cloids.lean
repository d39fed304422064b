import Hypercore.Engine.Filing
import Hypercore.Engine.Ledger
import Hypercore.Engine.StoresRun
/-!
# Hypercore.Engine.Cloids

Which resting orders of the perp engine have a client order id.

The maps of client order ids are kept outside the engine. What their keeper learns of an
order that is placed is the order and its fills, and he asks the book which makers are gone.
`TagsKept` says that nothing happened to the ids in the book that he was not told of, and
`CloidMatch` what a match has to avoid for that: dropping an order with a client order id,
being rejected after it took one off the book, and, inside a trigger check, whose results
are not passed on, taking one off the book or adding one to it.
-/

namespace Hypercore

open Exec Int128

/-- Owner and client order id of an order that has one. -/
def Order.tag (o : Order) : Option (AccountAddress × ClientOrderId) :=
  o.clientOrderId.map fun c => (o.owner, c)

namespace Order

theorem tag_eq_none {o : Order} : o.tag = none ↔ o.clientOrderId = none := Option.map_eq_none_iff

@[simp] theorem tag_restated (r : Decimal) (o : Order) :
    (EngineState.restated r o).tag = o.tag := rfl

@[simp] theorem tag_shrunk (o : Order) (f : Int) : (MatchingEngine.shrunk o f).tag = o.tag := rfl

@[simp] theorem tag_cancel (o : Order) : o.cancel.tag = o.tag := rfl

end Order

/-- The tags of the orders that rest, by market and id. -/
abbrev Tags := MarketId → OrderId → Option (AccountAddress × ClientOrderId)

/-- Of the tags `T` those of account `a` with the client order ids `cloids` are gone. -/
structure Dropped (a : AccountAddress) (cloids : List ClientOrderId) (T T' : Tags) : Prop where
  tag : ∀ m id, T' m id = T m id ∨ T' m id = none ∧ ∃ c ∈ cloids, T m id = some (a, c)
  gone : ∀ c ∈ cloids, ∃ m id, T m id = some (a, c) ∧ T' m id = none

namespace Dropped

variable {a : AccountAddress} {cloids cloids' : List ClientOrderId} {T T' T'' : Tags}

theorem refl (a : AccountAddress) (T : Tags) : Dropped a [] T T :=
  ⟨fun _ _ => .inl rfl, fun _ h => absurd h List.not_mem_nil⟩

theorem trans (h : Dropped a cloids T T') (h' : Dropped a cloids' T' T'') :
    Dropped a (cloids ++ cloids') T T'' where
  tag m id := by
    rcases h'.tag m id with hsame | ⟨hnone, c, hc, htag⟩
    · rcases h.tag m id with hsame' | ⟨hnone, c, hc, htag⟩
      · exact .inl (hsame.trans hsame')
      · exact .inr ⟨hsame.trans hnone, c, List.mem_append_left _ hc, htag⟩
    · rcases h.tag m id with hsame' | ⟨hnone', -⟩
      · exact .inr ⟨hnone, c, List.mem_append_right _ hc, hsame'.symm.trans htag⟩
      · rw [hnone'] at htag
        cases htag
  gone c hc := by
    rcases List.mem_append.mp hc with hc | hc
    · obtain ⟨m, id, htag, hnone⟩ := h.gone c hc
      rcases h'.tag m id with hsame | ⟨hnone', -⟩
      · exact ⟨m, id, htag, hsame.trans hnone⟩
      · exact ⟨m, id, htag, hnone'⟩
    · obtain ⟨m, id, htag, hnone⟩ := h'.gone c hc
      rcases h.tag m id with hsame | ⟨hnone', -⟩
      · exact ⟨m, id, hsame.symm.trans htag, hnone⟩
      · rw [hnone'] at htag
        cases htag

/-- One order, that the account owns, loses its tag. -/
theorem of_order {o : Order} {m : MarketId} {id : OrderId} (howner : o.owner = a)
    (htag : o.tag = T m id) (hgone : T' m id = none)
    (hkept : ∀ k i, ¬ (m = k ∧ i = id) → T' k i = T k i) :
    Dropped a o.clientOrderId.toList T T' where
  tag k i := by
    by_cases hk : m = k ∧ i = id
    · obtain ⟨rfl, rfl⟩ := hk
      unfold Order.tag at htag
      cases hc : o.clientOrderId with
      | none =>
        rw [hc] at htag
        exact .inl (hgone.trans htag)
      | some c =>
        rw [hc, howner] at htag
        exact .inr ⟨hgone, c, by simp, htag.symm⟩
    · exact .inl (hkept k i hk)
  gone c hc := by
    rw [Option.mem_toList] at hc
    refine ⟨m, id, ?_, hgone⟩
    unfold Order.tag at htag
    rw [hc, howner] at htag
    exact htag.symm

end Dropped

namespace EngineState

/-- The tag of the order that a market's book has under an id. -/
def bookTag (s : EngineState) : Tags := fun m id => (s.bookGet m id).bind (·.tag)

/-- The tag of the order that is recorded under an id. -/
def recordTag (s : EngineState) : Tags := fun m id => (s.getOrder m id).bind (·.tag)

/-- Of the orders with the ids given out before, those that lost their tag are gone from the
book and were reported; the tags under new ids are `placed`. -/
structure TagsKept (reported : MarketId → OrderId → Prop) (placed : Tags)
    (s s' : EngineState) : Prop where
  next : s.nextOrderId ≤ s'.nextOrderId
  absent : ∀ m id, id < s.nextOrderId → s.bookGet m id = none → s'.bookGet m id = none
  tag : ∀ m id, id < s.nextOrderId → s'.bookTag m id = s.bookTag m id ∨
    reported m id ∧ s'.bookGet m id = none
  placed : ∀ m id, s.nextOrderId ≤ id → s'.bookTag m id = placed m id

/-- No tags. -/
def noTags : Tags := fun _ _ => none

namespace TagsKept

variable {reported : MarketId → OrderId → Prop} {placed : Tags} {s t u : EngineState}

/-- The books are the same, and have no order under an id that was not given out. -/
theorem of_books (hnext : s.nextOrderId ≤ t.nextOrderId)
    (hbook : ∀ m id, t.bookGet m id = s.bookGet m id)
    (hfresh : ∀ m id, s.nextOrderId ≤ id → s.bookGet m id = none) :
    TagsKept reported noTags s t where
  next := hnext
  absent m id _ h := by rw [hbook, h]
  tag m id _ := .inl (by rw [bookTag, bookTag, hbook])
  placed m id h := by
    rw [bookTag, hbook, hfresh m id h]
    rfl

theorem trans (h : TagsKept reported placed s t) (h' : TagsKept reported noTags t u)
    (hplaced : ∀ m id, placed m id ≠ none → id < t.nextOrderId ∧ ¬ reported m id) :
    TagsKept reported placed s u where
  next := h.next.trans h'.next
  absent m id hid hnone := h'.absent m id (hid.trans_le h.next) (h.absent m id hid hnone)
  tag m id hid := by
    have hid' := hid.trans_le h.next
    rcases h.tag m id hid with htag | ⟨hrep, hgone⟩
    · rcases h'.tag m id hid' with htag' | hgone
      · exact .inl (htag'.trans htag)
      · exact .inr hgone
    · exact .inr ⟨hrep, h'.absent m id hid' hgone⟩
  placed m id hid := by
    rcases lt_or_ge id t.nextOrderId with hid' | hid'
    · rcases h'.tag m id hid' with htag | ⟨hrep, hgone⟩
      · rw [htag, h.placed m id hid]
      · -- what was placed is not reported, so nothing was
        have hnone : placed m id = none := by
          by_contra hne
          exact (hplaced m id hne).2 hrep
        rw [bookTag, hgone, hnone]
        rfl
    · have hnone : placed m id = none := by
        by_contra hne
        exact absurd (hplaced m id hne).1 (Nat.not_lt.mpr hid')
      rw [h'.placed m id hid', hnone]
      rfl

theorem mono {reported' : MarketId → OrderId → Prop} (h : TagsKept reported placed s t)
    (himp : ∀ m id, reported m id → reported' m id) : TagsKept reported' placed s t :=
  ⟨h.next, h.absent, fun m id hid => (h.tag m id hid).imp_right (And.imp_left (himp m id)),
    h.placed⟩

end TagsKept

end EngineState

/-! ### Engines in order -/

namespace Engine

open EngineState MatchingEngine

/-- The orders map and the books may differ in the orders they have, but not in the client
order ids; and every market is one of the perp engine's. -/
structure Tidy (e : Engine) : Prop where
  books : BooksOk e.state
  records : Records e.state
  filed : e.state.Filed
  tags : e.state.recordTag = e.state.bookTag
  fresh : ∀ m id, e.state.nextOrderId ≤ id → e.state.bookGet m id = none
  /-- Cancellations find the matching engine's book. -/
  venue : ∀ m : MarketId, (e.state.orderbooks[m]?).isSome →
    m < 128 ∧ (e.matching.orderbooks[m]?).isSome

namespace Tidy

variable {e e' : Engine}

/-- Nothing about orders has changed. -/
theorem kept (he : e.Tidy) (h : OrdersKept e.state e'.state) (hm : e'.matching = e.matching) :
    e'.Tidy where
  books := h.booksOk he.books
  records := h.records he.records
  filed := (filing_of_kept h).filed he.filed
  tags := by
    funext m id
    rw [recordTag, bookTag, h.getOrder, h.bookGet]
    exact congrFun (congrFun he.tags m) id
  fresh m id hid := by
    rw [h.bookGet]
    rw [h.nextOrderId] at hid
    exact he.fresh m id hid
  venue m hbook := by
    rw [hm]
    rw [h.orderbooks] at hbook
    exact he.venue m hbook

theorem tag_eq (he : e.Tidy) (m : MarketId) (id : OrderId) :
    (e.state.getOrder m id).bind (·.tag) = (e.state.bookGet m id).bind (·.tag) :=
  congrFun (congrFun he.tags m) id

end Tidy

/-! ### One match -/

/-- What the match of an order must avoid. `reported` makers can be gone without anyone else
being told; the id of the order itself may have to be `registered`. -/
structure CloidMatch (reported : OrderId → Prop) (registered : Prop) (order : Order)
    (w : Auction.Outcome Order) : Prop where
  /-- Self-trade prevention takes no client order id off the book. -/
  dropped : ∀ o ∈ w.dropped, o.clientOrderId = none
  /-- Nor does an order that is rejected after it was filled. -/
  rejected : order.postOnly ∨ order.isFok → w.unfilled ≠ 0 →
    ∀ p ∈ w.taken, p.1.remainingSize.value = p.2 → p.1.clientOrderId = none
  reported : ∀ p ∈ w.taken, p.1.remainingSize.value = p.2 →
    p.1.clientOrderId = none ∨ reported p.1.id
  rests : order.shouldRest → w.unfilled ≠ 0 → ¬ (order.postOnly ∧ w.taken ≠ []) →
    order.OnOwnSide ∧ (order.clientOrderId = none ∨ registered)

instance (reported : OrderId → Prop) [DecidablePred reported] (registered : Prop)
    [Decidable registered] (order : Order) (w : Auction.Outcome Order) :
    Decidable (CloidMatch reported registered order w) :=
  decidable_of_iff ((∀ o ∈ w.dropped, o.clientOrderId = none) ∧
      (order.postOnly ∨ order.isFok → w.unfilled ≠ 0 →
        ∀ p ∈ w.taken, p.1.remainingSize.value = p.2 → p.1.clientOrderId = none) ∧
      (∀ p ∈ w.taken, p.1.remainingSize.value = p.2 →
        p.1.clientOrderId = none ∨ reported p.1.id) ∧
      (order.shouldRest → w.unfilled ≠ 0 → ¬ (order.postOnly ∧ w.taken ≠ []) →
        order.OnOwnSide ∧ (order.clientOrderId = none ∨ registered)))
    ⟨fun h => ⟨h.1, h.2.1, h.2.2.1, h.2.2.2⟩,
      fun h => ⟨h.dropped, h.rejected, h.reported, h.rests⟩⟩

/-- The order is refused although it traded. -/
def RefusedAfterFills (order : Order) (w : Auction.Outcome Order) : Prop :=
  (order.postOnly ∨ order.isFok) ∧ w.unfilled ≠ 0

section Match

variable {reported : OrderId → Prop} {registered : Prop} {order : Order}
  {book book₁ book₂ : OrderBook}

/-- **One match.** A maker that loses its tag was taken whole, is reported, and the order is
not refused. -/
theorem CloidMatch.book_tag (hb : book.WF)
    (hc : CloidMatch reported registered order (auction order book))
    (hmatched : ∀ id, book₁.get id = (book.get id).bind
      ((auction order book).leaves (rules order (noCross order.side)) shrunk)) (id : OrderId) :
    (book₁.get id).bind (·.tag) = (book.get id).bind (·.tag) ∨
      reported id ∧ book₁.get id = none ∧ ¬ RefusedAfterFills order (auction order book) ∧
        ∃ p ∈ (auction order book).taken, p.1.id = id := by
  rw [hmatched]
  cases hg : book.get id with
  | none => exact .inl rfl
  | some a =>
    rw [Option.bind_some, Option.bind_some]
    unfold Auction.Outcome.leaves
    split
    · rename_i hdrop
      left
      exact (Order.tag_eq_none.mpr (hc.dropped a hdrop)).symm
    · split
      · exact .inl rfl
      · rename_i p f hfind
        have hp := List.mem_of_find?_eq_some hfind
        obtain rfl : p = a := by simpa using List.find?_some hfind
        split
        · rename_i hsize
          by_cases htag : p.clientOrderId = none
          · left
            exact (Order.tag_eq_none.mpr htag).symm
          · right
            have hid : p.id = id := hb.get_id hg
            refine ⟨?_, rfl, fun hrefused => ?_, (p, f), hp, hid⟩
            · exact hid ▸ (hc.reported (p, f) hp hsize).resolve_left htag
            · exact htag (hc.rejected hrefused.1 hrefused.2 (p, f) hp hsize)
        · exact .inl rfl

/-- What has no order before the match has none after it. -/
theorem matched_absent
    (hmatched : ∀ id, book₁.get id = (book.get id).bind
      ((auction order book).leaves (rules order (noCross order.side)) shrunk)) {id : OrderId}
    (h : book.get id = none) : book₁.get id = none := by
  rw [hmatched, h]
  rfl

/-- The ids of the makers in the fills of a match. -/
theorem mem_makerIds_matched {id : OrderId} :
    id ∈ makerIds ((auction order book).taken.map fun p => mkFill order p.1 p.2) ↔
      ∃ p ∈ (auction order book).taken, p.1.id = id := by
  rw [mem_makerIds]
  simp only [List.mem_map, exists_exists_and_eq_and]
  rfl

theorem booksOk_setOrderbook {s : EngineState} {m : MarketId} {b b' : OrderBook}
    (hbooks : BooksOk s) (hm : s.orderbooks[m]? = some b) (hwf : b'.WF) :
    BooksOk (s.setOrderbook m b') where
  wf k c hk := by
    simp only [setOrderbook, FinMap.get_insert] at hk
    split at hk
    · obtain rfl := Option.some.inj hk
      exact hwf
    · exact hbooks.wf k c hk
  both k := (hbooks.both k).trans (FinMap.isSome_insert hm k b').symm

/-- **Where the map catches up.** After the synchronisation the records have the tags of the
matched book; `book₂` may also have the new order. -/
theorem syncMakers_tags {s : EngineState} (hbooks : BooksOk s) (hr : Records s)
    (htags : s.recordTag = s.bookTag) (hm : s.orderbooks[order.marketId]? = some book)
    (hc : CloidMatch reported registered order (auction order book))
    (hmatched : ∀ id, book₁.get id = (book.get id).bind
      ((auction order book).leaves (rules order (noCross order.side)) shrunk))
    (hwf : book₂.WF) (hsame : ∀ id, (book.get id).isSome → book₂.get id = book₁.get id) :
    let fills := (auction order book).taken.map fun p => mkFill order p.1 p.2
    let s' := syncMakers (s.setOrderbook order.marketId book₂) order.marketId fills
    BooksKept (s.setOrderbook order.marketId book₂) s' ∧
      (∀ k i, s'.recordTag k i =
        if order.marketId = k then (book₁.get i).bind (·.tag) else s.bookTag k i) ∧
      ∀ k i, s.getOrder k i = none → s'.getOrder k i = none := by
  intro fills s'
  have hb := hbooks.wf _ _ hm
  have hself : (s.setOrderbook order.marketId book₂).orderbooks[order.marketId]? = some book₂ :=
    FinMap.get_insert_self _ _ _
  obtain ⟨hkept, hget⟩ := syncMakers_spec fills (booksOk_setOrderbook hbooks hm hwf)
    ⟨hr.place, hr.index⟩ hself
  have hold : ∀ k i, (s.setOrderbook order.marketId book₂).getOrder k i = s.getOrder k i :=
    fun _ _ => rfl
  have htag : ∀ k i, (s.getOrder k i).bind (·.tag) = s.bookTag k i := fun k i =>
    congrFun (congrFun htags k) i
  have hbook : ∀ i, s.bookTag order.marketId i = (book.get i).bind (·.tag) := fun i => by
    simp only [bookTag, bookGet, hm, Option.bind_some]
  refine ⟨hkept, fun k i => ?_, fun k i hnone => ?_⟩
  · unfold recordTag
    rw [hget, hold]
    by_cases hk : order.marketId = k
    · subst hk
      rw [if_pos rfl]
      simp only [true_and]
      rcases hc.book_tag hb hmatched i with hsametag | ⟨-, hgone, -, hmaker⟩
      · split
        · rename_i hi
          obtain ⟨p, hp, rfl⟩ := mem_makerIds_matched.mp hi
          have hin : (book.get p.1.id).isSome := by rw [(auction_mem hb).1 p hp]; rfl
          rw [hsame _ hin]
          cases hg : book₁.get p.1.id with
          | none => rfl
          | some o =>
            rw [hg] at hsametag
            rw [Option.bind_some, Option.bind_map]
            exact (htag _ _).trans ((hbook _).trans hsametag.symm)
        · exact (htag _ _).trans ((hbook i).trans hsametag.symm)
      · -- the maker is gone from the book, so the synchronisation removes it
        obtain ⟨p, hp, rfl⟩ := hmaker
        have hin : (book.get p.1.id).isSome := by rw [(auction_mem hb).1 p hp]; rfl
        rw [if_pos (mem_makerIds_matched.mpr ⟨p, hp, rfl⟩), hsame _ hin, hgone]
        rfl
    · rw [if_neg hk, if_neg (fun h => hk h.1)]
      exact htag k i
  · rw [hget, hold, hnone]
    split
    · cases book₂.get i <;> rfl
    · rfl

end Match

/-! ### One order -/

/-- The tag under which an order rests that was placed. -/
def placedTag : Except Error (Order × List Fill) → Option (AccountAddress × ClientOrderId)
  | .ok (order, _) => if !order.isFilled && order.shouldRest then order.tag else none
  | .error _ => none

/-- Market and id of the makers of fills. -/
def makers (fills : List Fill) : List (MarketId × OrderId) :=
  fills.map fun f => (f.marketId, f.makerOrderId)

/-- A fill that is passed on has the order as its maker. -/
def MakerIn (r : Except Error (Order × List Fill)) (m : MarketId) (id : OrderId) : Prop :=
  ∃ order fills, r = .ok (order, fills) ∧ (m, id) ∈ makers fills

/-- What the execution of an account's order with an id in a market does to the tags. -/
structure ExecutedTags (reported : OrderId → Prop) (a : AccountAddress) (m : MarketId)
    (id : OrderId) (r : Except Error (Order × List Fill)) (s s' : EngineState) : Prop where
  next : s'.nextOrderId = s.nextOrderId
  absent : ∀ k i, ¬ (m = k ∧ id = i) → s.bookGet k i = none → s'.bookGet k i = none
  tag : ∀ k i, ¬ (m = k ∧ id = i) → s'.bookTag k i = s.bookTag k i ∨
    (m = k ∧ reported i) ∧ s'.bookGet k i = none ∧ MakerIn r k i
  own : s'.bookTag m id = placedTag r
  order : ∀ o fills, r = .ok (o, fills) → o.owner = a ∧ o.id = id ∧
    ∀ p ∈ makers fills, p.1 = m ∧ (s.bookGet m p.2).isSome

section Execute

variable {reported : OrderId → Prop} {registered : Prop} {e e' : Engine} {market : Market}
  {order : Order} {r : Except Error (Order × List Fill)}
variable {fills fills' : List Fill}

theorem settleFills_matching {config : MarketConfig}
    (h : settleFills config fills e = .ok (fills', e')) : e'.matching = e.matching := by
  have hdata : DataOnly e e' := (settleFills_only h).2
  rw [hdata]

/-- Settling prices the fills, and leaves their parties alone. -/
theorem settleFills_makers {config : MarketConfig}
    (h : settleFills config fills e = .ok (fills', e')) : makers fills' = makers fills := by
  induction fills generalizing e e' fills' with
  | nil =>
    obtain ⟨rfl, -⟩ := pair_inv h
    rfl
  | cons fill fills ih =>
    obtain ⟨fill', hprice, h⟩ := bind_inv h
    obtain ⟨e₁, -, h⟩ := bind_inv h
    obtain ⟨⟨rest, e₂⟩, h2, h⟩ := bind_inv h
    obtain ⟨rfl, -⟩ := pair_inv h
    obtain ⟨_, _, _, _, rfl⟩ := priceFill_spec hprice
    exact congrArg (_ :: ·) (ih h2)

theorem settleOrder_makers {updated : Order}
    (h : e.settleOrder market updated fills = .ok (fills', e')) :
    makers fills' = makers fills := by
  obtain ⟨⟨fills₁, e₁⟩, hfills, h⟩ := bind_inv h
  have hmakers := settleFills_makers hfills
  dsimp only at h
  split at h
  · obtain ⟨e₂, -, h⟩ := bind_inv h
    obtain ⟨rfl, -⟩ := pair_inv h
    exact hmakers
  · obtain ⟨rfl, -⟩ := pair_inv h
    exact hmakers

theorem settleOrder_matching {updated : Order}
    (h : e.settleOrder market updated fills = .ok (fills', e')) : e'.matching = e.matching := by
  obtain ⟨⟨fills₁, e₁⟩, hfills, h⟩ := bind_inv h
  have hmatching := settleFills_matching hfills
  dsimp only at h
  split at h
  · obtain ⟨e₂, hadd, h⟩ := bind_inv h
    obtain ⟨-, rfl⟩ := pair_inv h
    obtain ⟨t, -, rfl⟩ := onState_eq_ok hadd
    exact hmatching
  · obtain ⟨-, rfl⟩ := pair_inv h
    exact hmatching

/-- Everything follows from the book that is left in the end: the matched one, with or
without the order. -/
theorem tags_of_book {book book₁ bookF : OrderBook} (he : e.Tidy)
    (hm : e.state.orderbooks[order.marketId]? = some book)
    (hid : order.id < e.state.nextOrderId)
    (hc : CloidMatch reported registered order (auction order book))
    (hmatched : ∀ id, book₁.get id = (book.get id).bind
      ((auction order book).leaves (rules order (noCross order.side)) shrunk))
    (hstate : BooksOk e'.state ∧ Records e'.state ∧ e'.state.recordTag = e'.state.bookTag)
    (hfiling : OrderMaps.FilingKept e.state.maps e'.state.maps)
    (hmatching : e'.matching = e.matching) (hnext : e'.state.nextOrderId = e.state.nextOrderId)
    (hget : ∀ k i, e'.state.bookGet k i =
      if order.marketId = k then bookF.get i else e.state.bookGet k i)
    (hsame : ∀ i, order.id ≠ i → bookF.get i = book₁.get i)
    (hown : (bookF.get order.id).bind (·.tag) = placedTag r)
    (hok : ¬ RefusedAfterFills order (auction order book) → ∃ o fills, r = .ok (o, fills))
    (hfills : ∀ o fills, r = .ok (o, fills) → o.owner = order.owner ∧ o.id = order.id ∧
      makers fills = makers ((auction order book).taken.map fun p => mkFill order p.1 p.2)) :
    e'.Tidy ∧ ExecutedTags reported order.owner order.marketId order.id r e.state e'.state := by
  have hb := he.books.wf _ _ hm
  have hbook : ∀ i, e.state.bookGet order.marketId i = book.get i := fun i => by
    simp only [bookGet, hm, Option.bind_some]
  have habsent : ∀ k i, ¬ (order.marketId = k ∧ order.id = i) → e.state.bookGet k i = none →
      e'.state.bookGet k i = none := by
    intro k i hne hgone
    rw [hget]
    split
    · rename_i hk
      subst hk
      rw [hsame i fun hi => hne ⟨rfl, hi⟩]
      exact matched_absent hmatched ((hbook i).symm.trans hgone)
    · exact hgone
  obtain ⟨hbooks, hrecords, htags⟩ := hstate
  refine ⟨⟨hbooks, hrecords, hfiling.filed he.filed, htags, fun k i hi => ?_, fun k hk => ?_⟩,
    hnext, habsent, fun k i hne => ?_, ?_, fun o fills hr => ?_⟩
  · rw [hnext] at hi
    refine habsent k i (fun hc => ?_) (he.fresh k i hi)
    exact absurd (hc.2 ▸ hi) (Nat.not_le.mpr hid)
  · rw [hmatching]
    exact he.venue k ((hfiling.books k).symm.trans hk)
  · unfold bookTag
    rw [hget]
    by_cases hk : order.marketId = k
    · subst hk
      have hi : order.id ≠ i := fun hi => hne ⟨rfl, hi⟩
      rw [if_pos rfl, hsame i hi, hbook]
      rcases hc.book_tag hb hmatched i with hsametag | ⟨hrep, hgone, href, p, hp, hpi⟩
      · exact .inl hsametag
      · obtain ⟨o, fills, rfl⟩ := hok href
        refine .inr ⟨⟨rfl, hrep⟩, hgone, o, fills, rfl, ?_⟩
        rw [(hfills o fills rfl).2.2]
        exact List.mem_map.mpr ⟨_, List.mem_map_of_mem hp, by rw [← hpi]; rfl⟩
    · rw [if_neg hk]
      exact .inl rfl
  · unfold bookTag
    rw [hget, if_pos rfl]
    exact hown
  · obtain ⟨howner, ho, hmakers⟩ := hfills o fills hr
    refine ⟨howner, ho, fun q hq => ?_⟩
    rw [hmakers] at hq
    obtain ⟨f, hf, rfl⟩ := List.mem_map.mp hq
    obtain ⟨p, hp, rfl⟩ := List.mem_map.mp hf
    refine ⟨rfl, ?_⟩
    show (e.state.bookGet order.marketId p.1.id).isSome
    rw [hbook, (auction_mem hb).1 p hp]
    rfl

/-- **Execution.** -/
theorem executeOrder_tags (he : e.Tidy) (hid : order.id < e.state.nextOrderId)
    (hnew : e.state.bookGet order.marketId order.id = none)
    (hrecord : e.state.getOrder order.marketId order.id = none)
    (hcond : ∀ book, e.state.getOrderbook order.marketId = some book →
      CloidMatch reported registered order (auction order book))
    (h : e.executeOrder market order = .ok (r, e')) :
    e'.Tidy ∧ ExecutedTags reported order.owner order.marketId order.id r e.state e'.state ∧
      (placedTag r ≠ none → registered) := by
  have hfiling := executeOrder_filing h
  unfold executeOrder at h
  cases hm : e.state.getOrderbook order.marketId with
  | none =>
    simp only [hm] at h
    obtain ⟨rfl, rfl⟩ := pair_inv h
    refine ⟨he, ⟨rfl, fun _ _ _ h => h, fun _ _ _ => .inl rfl, ?_, fun _ _ h => (by cases h)⟩,
      fun h => absurd rfl h⟩
    rw [bookTag, hnew]
    rfl
  | some book =>
    simp only [hm] at h
    obtain ⟨⟨r₁, book₂⟩, hp, h⟩ := bind_inv h
    have hb := he.books.wf _ _ hm
    have hc := hcond book hm
    have hnone : book.get order.id = none := by
      unfold getOrderbook at hm
      simpa only [bookGet, hm, Option.bind_some] using hnew
    obtain ⟨order₁, book₁, r₂, hfrom, hval, hwf₁, hget₁, hun, rfl⟩ := processOrder_spec hb hp
    set fills := (auction order book).taken.map fun p => mkFill order p.1 p.2 with hfills
    have hmk : order₁.marketId = order.marketId := by rw [hfrom.1]
    have hid₁ : order₁.id = order.id := by rw [hfrom.1]
    have howner₁ : order₁.owner = order.owner := by rw [hfrom.1]
    have htag₁ : order₁.tag = order.tag := by rw [hfrom.1]; rfl
    have hunfilled : order₁.isFilled = false → (auction order book).unfilled ≠ 0 := by
      intro hf hz
      rw [Order.isFilled, Bool.eq_false_iff] at hf
      exact hf (Decimal.isZero_iff.mpr (hval.trans hz))
    have hbook : ∀ i, e.state.bookGet order.marketId i = book.get i := fun i => by
      simp only [bookGet, show e.state.orderbooks[order.marketId]? = some book from hm,
        Option.bind_some]
    have hnone₁ : book₁.get order.id = none := matched_absent hget₁ hnone
    -- endings that add nothing to the matched book
    have hplain : ∀ updated : Order, updated.marketId = order.marketId →
        updated.owner = order.owner → updated.id = order.id →
        (!updated.isFilled && updated.shouldRest) = false →
        ∀ e₁ fills', settleOrder { e with state := e.state.setOrderbook order.marketId book₁ }
          market updated fills = .ok (fills', e₁) →
        OrderMaps.FilingKept e.state.maps e₁.state.maps → e₁.Tidy ∧
        ExecutedTags reported order.owner order.marketId order.id (.ok (updated, fills')) e.state
          e₁.state := by
      intro updated hmu howner hidu hrest e₁ fills' hset hkept
      have hstores := settleOrder_plain hrest hset
      rw [hmu] at hstores
      obtain ⟨h1, h2, -⟩ := syncMakers_tags he.books he.records he.tags hm hc hget₁ hwf₁
        (fun _ _ => rfl)
      have hget : ∀ k i, e₁.state.bookGet k i =
          if order.marketId = k then book₁.get i else e.state.bookGet k i := fun k i => by
        rw [hstores.bookGet, h1.bookGet, bookGet_setOrderbook]
      refine tags_of_book he hm hid hc hget₁
        ⟨hstores.booksOk h1.books, hstores.records h1.records, ?_⟩ hkept
        ((settleOrder_matching hset).trans rfl) (hstores.nextOrderId.trans h1.nextOrderId) hget
        (fun _ _ => rfl) ?_ (fun _ => ⟨updated, fills', rfl⟩) ?_
      · funext k i
        have hrec := h2 k i
        unfold recordTag bookTag at *
        rw [hstores.getOrder, hrec, hget]
        split <;> rfl
      · rw [hnone₁, placedTag, hrest]
        rfl
      · rintro o fills₁ ⟨⟩
        exact ⟨howner, hidu, settleOrder_makers hset⟩
    rcases handleUnfilled_cases hun with ⟨hfull, rfl, rfl⟩ | ⟨hnf, -, rfl, hrej⟩ |
      ⟨hnf, hrests, rfl, hins⟩ | ⟨hnf, hcanc, rfl, rfl⟩
    · -- filled
      obtain ⟨⟨fills', e₁⟩, hset, h⟩ := bind_inv h
      obtain ⟨rfl, rfl⟩ := pair_inv h
      have hrest : (!order₁.isFilled && order₁.shouldRest) = false := by simp [hfull]
      obtain ⟨htidy, htags⟩ := hplain order₁ hmk howner₁ hid₁ hrest _ _ hset hfiling
      refine ⟨htidy, htags, fun hne => absurd ?_ hne⟩
      rw [placedTag, hrest]
      rfl
    · -- refused
      obtain ⟨err, rfl⟩ : ∃ err, r₂ = .error err := by
        rcases hrej with ⟨-, hr⟩ | ⟨-, hr⟩ <;> exact ⟨_, hr⟩
      obtain ⟨rfl, rfl⟩ := pair_inv h
      have hrefused : RefusedAfterFills order (auction order book) := by
        refine ⟨?_, hunfilled hnf⟩
        rw [hfrom.1] at hrej
        exact hrej.imp And.left And.left
      have htags : (e.state.setOrderbook order.marketId book₂).recordTag =
          (e.state.setOrderbook order.marketId book₂).bookTag := by
        funext k i
        rw [show (e.state.setOrderbook order.marketId book₂).recordTag = e.state.recordTag from rfl,
          he.tags]
        unfold bookTag
        rw [bookGet_setOrderbook]
        split
        · rename_i hk
          rw [← hk, hbook]
          rcases hc.book_tag hb hget₁ i with hsametag | ⟨-, -, hnot, -⟩
          · exact hsametag.symm
          · exact absurd hrefused hnot
        · rfl
      have hends : Tidy { e with state := e.state.setOrderbook order.marketId book₂ } ∧
          ExecutedTags reported order.owner order.marketId order.id (.error err) e.state
            (e.state.setOrderbook order.marketId book₂) :=
        tags_of_book he hm hid hc hget₁
          ⟨booksOk_setOrderbook he.books hm hwf₁, ⟨he.records.place, he.records.index⟩, htags⟩
          hfiling rfl rfl (fun k i => bookGet_setOrderbook ..) (fun _ _ => rfl)
          (by rw [hnone₁]; rfl) (fun h => absurd hrefused h) (fun _ _ h => by cases h)
      exact ⟨hends.1, hends.2, fun hne => absurd rfl hne⟩
    · -- the rest goes on the book
      obtain ⟨⟨fills', e₁⟩, hset, h⟩ := bind_inv h
      obtain ⟨rfl, rfl⟩ := pair_inv h
      have hrest : (!order₁.isFilled && order₁.shouldRest) = true := by simp [hnf, hrests]
      have hplaced : placedTag (.ok (order₁, fills')) = order₁.tag := by
        unfold placedTag
        dsimp only
        rw [if_pos hrest]
      have hends : order.OnOwnSide ∧ (order.clientOrderId = none ∨ registered) := by
        refine hc.rests (by rw [hfrom.1] at hrests; exact hrests) (hunfilled hnf) fun hrej => ?_
        -- a post-only order that traded is refused
        unfold handleUnfilled at hun
        rw [if_neg (by rw [← Order.isFilled, hnf]; exact Bool.false_ne_true), if_pos] at hun
        · cases pure_inv hun
        · refine ⟨by rw [hfrom.1]; exact hrej.1, fun hnil => hrej.2 ?_⟩
          exact List.map_eq_nil_iff.mp hnil
      have hown : order₁.OnOwnSide := by
        rw [hfrom.1]
        exact hends.1
      obtain ⟨hwf₂, hget₂⟩ := hwf₁.insert (by rw [hid₁, hnone₁]) hown hins
      have hother : ∀ i, order.id ≠ i → book₂.get i = book₁.get i := by
        intro i hi
        rw [hget₂, hid₁, if_neg hi]
      obtain ⟨h1, h2, h3⟩ := syncMakers_tags he.books he.records he.tags hm hc hget₁ hwf₂ (by
        intro i hsome
        refine hother i fun hi => ?_
        rw [← hi, hnone] at hsome
        cases hsome)
      obtain ⟨s, hstores, hadd⟩ := settleOrder_rests hrest hset
      rw [hmk] at hstores
      have hbook₂ : ∀ k i, s.bookGet k i =
          if order.marketId = k then book₂.get i else e.state.bookGet k i := fun k i => by
        rw [hstores.bookGet, h1.bookGet, bookGet_setOrderbook]
      obtain ⟨h4, h5⟩ := addOrder_spec (hstores.booksOk h1.books) (hstores.records h1.records)
        (by rw [hbook₂, hmk, if_pos rfl, hget₂, if_pos rfl])
        (by rw [hstores.getOrder, hmk, hid₁]; exact h3 _ _ hrecord)
        (by rw [hid₁, hstores.nextOrderId, h1.nextOrderId]; exact hid) hadd
      have hget : ∀ k i, e₁.state.bookGet k i =
          if order.marketId = k then book₂.get i else e.state.bookGet k i := fun k i => by
        rw [h4.bookGet, hbook₂]
      have hagree : e₁.state.recordTag = e₁.state.bookTag := by
        funext k i
        have hrec := h2 k i
        unfold recordTag bookTag at *
        rw [h5, hget, hmk, hid₁]
        by_cases hk : order.marketId = k ∧ order.id = i
        · rw [if_pos hk, if_pos hk.1, hget₂, hid₁, if_pos hk.2]
        · rw [if_neg hk, hstores.getOrder, hrec]
          by_cases hk' : order.marketId = k
          · rw [if_pos hk', if_pos hk', hother i fun hi => hk ⟨hk', hi⟩]
          · rw [if_neg hk', if_neg hk']
      obtain ⟨htidy, htags⟩ := tags_of_book (r := .ok (order₁, fills')) he hm hid hc hget₁
        ⟨h4.books, h4.records, hagree⟩ hfiling ((settleOrder_matching hset).trans rfl)
        (h4.nextOrderId.trans (hstores.nextOrderId.trans h1.nextOrderId)) hget hother
        (by rw [hplaced, hget₂, hid₁, if_pos rfl]; rfl) (fun _ => ⟨order₁, fills', rfl⟩)
        (by
          rintro o fills₁ ⟨⟩
          exact ⟨howner₁, hid₁, settleOrder_makers hset⟩)
      refine ⟨htidy, htags, fun hne => hends.2.resolve_left fun hnone => hne ?_⟩
      rw [hplaced, htag₁]
      exact Order.tag_eq_none.mpr hnone
    · -- the rest is cancelled
      obtain ⟨⟨fills', e₁⟩, hset, h⟩ := bind_inv h
      obtain ⟨rfl, rfl⟩ := pair_inv h
      have hrest : (!Order.isFilled { order₁ with status := .canceled } &&
          Order.shouldRest { order₁ with status := .canceled }) = false := by
        rw [show Order.shouldRest { order₁ with status := .canceled } = false from hcanc,
          Bool.and_false]
      obtain ⟨htidy, htags⟩ := hplain { order₁ with status := .canceled } hmk howner₁ hid₁ hrest
        _ _ hset hfiling
      refine ⟨htidy, htags, fun hne => absurd ?_ hne⟩
      unfold placedTag
      dsimp only
      rw [hrest]
      rfl

end Execute

/-! ### Submissions -/

/-- What a submission that passes the checks must avoid. A trigger order that is stored does
not rest, so its client order id must not be registered either. -/
def CloidsFollow (reported : MarketId → OrderId → Prop) (registered : Prop) : SubmitCond :=
  fun e account request => e.admits account request →
    let order := Order.new e.state.nextOrderId account request 0
    (request.triggerPrice.isSome → (!order.isFilled && order.shouldRest) = true →
      request.clientOrderId = none) ∧
    (request.triggerPrice = none → ∀ book ∈ e.state.getOrderbook request.marketId,
      CloidMatch (reported request.marketId) registered order (auction order book))

instance (reported : MarketId → OrderId → Prop) [∀ m, DecidablePred (reported m)]
    (registered : Prop) [Decidable registered] (e : Engine) (a : AccountAddress)
    (q : OrderRequest) : Decidable (CloidsFollow reported registered e a q) :=
  inferInstanceAs (Decidable (_ → (_ → _ → _) ∧ (_ → ∀ book ∈ _, CloidMatch _ _ _ _)))

/-- The tag of a new order in a market, and no others. -/
def newTag (m : MarketId) (id : OrderId) (tag : Option (AccountAddress × ClientOrderId)) : Tags :=
  fun k i => if m = k ∧ id = i then tag else none

/-- What a submission does to the tags. -/
structure SubmittedTags (reported : MarketId → OrderId → Prop) (a : AccountAddress)
    (m : MarketId) (r : Except Error (Order × List Fill)) (s s' : EngineState) : Prop where
  kept : TagsKept (fun k i => reported k i ∧ MakerIn r k i) (newTag m s.nextOrderId (placedTag r))
    s s'
  order : ∀ o fills, r = .ok (o, fills) → o.owner = a ∧ o.id = s.nextOrderId ∧
    s.nextOrderId < s'.nextOrderId ∧ ∀ p ∈ makers fills, p.1 = m ∧ p.2 < s.nextOrderId

/-- **Submission.** -/
theorem submitOrder_tags {reported : MarketId → OrderId → Prop} {registered : Prop}
    {e e' : Engine} {a : AccountAddress} {q : OrderRequest} {t : Timestamp}
    {r : Except Error (Order × List Fill)} (he : e.Tidy)
    (hcond : CloidsFollow reported registered e a q) (h : e.submitOrder a q t = .ok (r, e')) :
    e'.Tidy ∧ SubmittedTags reported a q.marketId r e.state e'.state ∧
      (placedTag r ≠ none → registered) := by
  obtain ⟨⟨r₁, e₁⟩, hprep, h⟩ := bind_inv h
  obtain ⟨accounts, positions, rfl⟩ := prepareOrder_only hprep
  have hprepared : Tidy { e with state := { e.state with accounts, positions } } :=
    he.kept ⟨rfl, rfl, rfl, rfl⟩ rfl
  have hnone : newTag q.marketId e.state.nextOrderId none = noTags := by
    funext k i
    exact ite_self none
  cases r₁ with
  | error err =>
    obtain ⟨rfl, rfl⟩ := pair_inv h
    refine ⟨hprepared, ⟨?_, fun _ _ h => (by cases h)⟩, fun h => absurd rfl h⟩
    rw [show placedTag (.error err) = none from rfl, hnone]
    exact .of_books le_rfl (fun _ _ => rfl) he.fresh
  | ok market =>
    obtain ⟨⟨id, s⟩, hid, h⟩ := bind_inv h
    obtain ⟨rfl, rfl⟩ := takeOrderId_spec hid
    have hcond := hcond (by simp only [admits, hprep])
    have hnext : Tidy { e with state := { e.state with
        accounts, positions, nextOrderId := e.state.nextOrderId + 1 } } :=
      ⟨⟨he.books.wf, he.books.both⟩,
        ⟨fun m id o ho => ⟨(he.records.place m id o ho).1,
          Nat.lt_succ_of_lt (he.records.place m id o ho).2⟩, he.records.index⟩,
        he.filed, he.tags, fun m id hid => he.fresh m id (Nat.le_of_succ_le hid), he.venue⟩
    dsimp only at h
    split at h
    · rename_i htrig
      obtain ⟨rfl, rfl⟩ := pair_inv h
      have hkept := OrdersKept.of_triggers (addTriggerOrder_only
        (s := { e.state with accounts, positions, nextOrderId := e.state.nextOrderId + 1 })
        (Order.new e.state.nextOrderId a q t))
      have hplaced : placedTag (.ok (Order.new e.state.nextOrderId a q t, [])) = none := by
        unfold placedTag
        dsimp only
        split
        · rename_i hrest
          exact Order.tag_eq_none.mpr (hcond.1 htrig hrest)
        · rfl
      refine ⟨hnext.kept hkept rfl, ⟨?_, ?_⟩, fun hne => absurd hplaced hne⟩
      · rw [hplaced, hnone]
        exact .of_books (by rw [hkept.nextOrderId]; exact Nat.le_succ _)
          (fun m id => hkept.bookGet m id) he.fresh
      · rintro o fills ⟨⟩
        refine ⟨rfl, rfl, by rw [hkept.nextOrderId]; exact Nat.lt_succ_self _, fun p hp => ?_⟩
        cases hp
    · rename_i htrig
      have hmatch := hcond.2 (by simpa [Order.new] using htrig)
      have hbook : e.state.bookGet q.marketId e.state.nextOrderId = none := he.fresh _ _ le_rfl
      have hrecord : e.state.getOrder q.marketId e.state.nextOrderId = none := by
        by_contra hne
        obtain ⟨o, ho⟩ := Option.ne_none_iff_exists'.mp hne
        exact absurd (he.records.place _ _ _ ho).2 (Nat.lt_irrefl _)
      obtain ⟨htidy, htags, hreg⟩ := @executeOrder_tags (reported q.marketId) registered _ e'
        market (.new e.state.nextOrderId a q t) r hnext (Nat.lt_succ_self _) hbook hrecord
        (fun book hm => by
          have hc := hmatch book hm
          exact ⟨hc.dropped, hc.rejected, hc.reported, hc.rests⟩) h
      have hgrown : e'.state.nextOrderId = e.state.nextOrderId + 1 := htags.next
      refine ⟨htidy, ⟨⟨?_, fun m id hlt hgone => ?_, fun m id hlt => ?_, fun m id hle => ?_⟩,
        fun o fills hr => ?_⟩, hreg⟩
      · rw [hgrown]
        exact Nat.le_succ _
      · exact htags.absent m id (fun hc => absurd hc.2 (Nat.ne_of_gt hlt)) hgone
      · rcases htags.tag m id (fun hc => absurd hc.2 (Nat.ne_of_gt hlt)) with hsame | hlost
        · exact .inl hsame
        · exact .inr ⟨⟨hlost.1.1 ▸ hlost.1.2, hlost.2.2⟩, hlost.2.1⟩
      · unfold newTag
        split
        · rename_i hc
          rw [← hc.1, ← hc.2]
          exact htags.own
        · rename_i hc
          have hfresh : e.state.bookGet m id = none := he.fresh m id hle
          unfold bookTag
          rw [htags.absent m id hc hfresh]
          rfl
      · obtain ⟨howner, ho, hfills⟩ := htags.order o fills hr
        refine ⟨howner, ho, by rw [hgrown]; exact Nat.lt_succ_self _, fun p hp => ?_⟩
        obtain ⟨hm, hsome⟩ := hfills p hp
        refine ⟨hm, ?_⟩
        by_contra hge
        have hgone := he.fresh q.marketId p.2 (Nat.le_of_not_lt hge)
        replace hsome : (e.state.bookGet q.marketId p.2).isSome = true := hsome
        rw [hgone] at hsome
        cases hsome

/-! ### Placements -/

theorem newTag_none (m : MarketId) (id : OrderId) : newTag m id none = noTags := by
  funext k i
  exact ite_self none

/-- **Trigger checks.** What a check takes off the book with a tag was reported before. -/
theorem checkTriggers_tags {reported : MarketId → OrderId → Prop} {fuel : Nat} {e e' : Engine}
    {m : MarketId} {p : Decimal} {t : Timestamp} {res : Triggered} (he : e.Tidy)
    (hcond : CheckMeets (CloidsFollow reported False) fuel e m p t)
    (h : checkTriggersFuel fuel e m p t = .ok (res, e')) :
    e'.Tidy ∧ TagsKept reported noTags e.state e'.state := by
  refine checkTriggersFuel_induction (G := CloidsFollow reported False)
    (P := fun e₁ => e₁.Tidy ∧ TagsKept reported noTags e.state e₁.state)
    (fun e₁ a q r e₂ h1 hG hs => ?_) (fun e₁ m p h1 => ?_)
    ⟨he, .of_books le_rfl (fun _ _ => rfl) he.fresh⟩ hcond h
  · obtain ⟨htidy, htags, hreg⟩ := submitOrder_tags h1.1 hG hs
    have hkept := htags.kept
    rw [not_not.mp hreg, newTag_none] at hkept
    exact ⟨htidy, h1.2.trans (hkept.mono fun _ _ h => h.1) fun _ _ hne => absurd rfl hne⟩
  · obtain ⟨s, hs, heq⟩ := takeTriggered_only e₁ m p
    have hkept := OrdersKept.of_triggers hs
    rw [heq]
    exact ⟨h1.1.kept hkept rfl, h1.2.trans
      (.of_books (le_of_eq hkept.nextOrderId.symm) hkept.bookGet h1.1.fresh)
      fun _ _ hne => absurd rfl hne⟩

/-- What a placement must avoid, in its own match and in those of the trigger orders it
activates. Only its own fills are passed on. -/
def PlaceFollows (e : Engine) (a : AccountAddress) (q : OrderRequest) (t : Timestamp) : Prop :=
  CloidsFollow (fun _ _ => True) True e a q ∧
    ∀ order fills e', e.submitOrder a q t = .ok (.ok (order, fills), e') → fills ≠ [] →
      CheckMeets (CloidsFollow (fun m id => (m, id) ∈ makers fills) False)
        (triggerCount e.state + 1) e' q.marketId (triggerPriceOf e' q.marketId) t

instance (e : Engine) (a : AccountAddress) (q : OrderRequest) (t : Timestamp) :
    Decidable (e.PlaceFollows a q t) :=
  let checked (x : Result (Order × List Fill)) : Prop := match x with
    | (.error _, _) => True
    | (.ok (_, fills), e') => fills ≠ [] →
      CheckMeets (CloidsFollow (fun m id => (m, id) ∈ makers fills) False)
        (triggerCount e.state + 1) e' q.marketId (triggerPriceOf e' q.marketId) t
  have : DecidablePred checked := fun x => match x with
    | (.error _, _) => .isTrue trivial
    | (.ok (_, fills), e') => inferInstanceAs (Decidable (fills ≠ [] → CheckMeets _ _ _ _ _ _))
  decidable_of_iff (CloidsFollow (fun _ _ => True) True e a q ∧
      After (e.submitOrder a q t) checked)
    (and_congr_right fun _ => ⟨fun h order fills e' hs => h _ hs, fun h x hx => by
      obtain ⟨r, e'⟩ := x
      cases r with
      | error err => trivial
      | ok placed => exact h placed.1 placed.2 e' hx⟩)

/-- **Placement.** Whatever loses its tag is the maker of a fill that is passed on. -/
theorem placeOrder_tags {e e' : Engine} {a : AccountAddress} {q : OrderRequest} {t : Timestamp}
    {r : Except Error (Order × List Fill)} (he : e.Tidy) (hcond : e.PlaceFollows a q t)
    (h : e.placeOrder a q t = .ok (r, e')) :
    e'.Tidy ∧ SubmittedTags (fun _ _ => True) a q.marketId r e.state e'.state := by
  obtain ⟨⟨r₁, e₁⟩, hs, h⟩ := bind_inv h
  obtain ⟨htidy, htags, -⟩ := submitOrder_tags he hcond.1 hs
  cases r₁ with
  | error err =>
    obtain ⟨rfl, rfl⟩ := pair_inv h
    exact ⟨htidy, htags⟩
  | ok placed =>
    obtain ⟨order, fills⟩ := placed
    dsimp only at h
    split at h
    · obtain ⟨rfl, rfl⟩ := pair_inv h
      exact ⟨htidy, htags⟩
    · rename_i hne
      split at h
      · obtain ⟨rfl, rfl⟩ := pair_inv h
        exact ⟨htidy, htags⟩
      · obtain ⟨⟨res, e₂⟩, hcheck, h⟩ := bind_inv h
        obtain ⟨rfl, rfl⟩ := pair_inv h
        obtain ⟨htidy₂, hchecked⟩ := checkTriggers_tags htidy (hcond.2 order fills e₁ hs hne)
          hcheck
        obtain ⟨-, hid, hgrown, hmakers⟩ := htags.order order fills rfl
        have hkept := htags.kept.trans
          (hchecked.mono fun m id hin => ⟨trivial, order, fills, rfl, hin⟩) fun m id hplaced => ?_
        · exact ⟨htidy₂, hkept, fun o fills' hr => by
            obtain ⟨howner, ho, hlt, hin⟩ := htags.order o fills' hr
            exact ⟨howner, ho, hlt.trans_le hchecked.next, hin⟩⟩
        · -- the new order has an id above those of the makers
          unfold newTag at hplaced
          split at hplaced
          · rename_i hc
            refine ⟨hc.2 ▸ hgrown, ?_⟩
            rintro ⟨-, o, fills', ⟨⟩, hin⟩
            exact absurd (hc.2 ▸ (hmakers _ hin).2) (Nat.lt_irrefl _)
          · exact absurd rfl hplaced

/-! ### Cancellations -/

/-- The orders of a market with the given ids lose their tags, the others keep theirs. -/
structure Untagged (m : MarketId) (ids : List OrderId) (e e' : Engine) : Prop where
  tidy : e'.Tidy
  next : e'.state.nextOrderId = e.state.nextOrderId
  books : ∀ k : MarketId, (e'.state.orderbooks[k]?).isSome = (e.state.orderbooks[k]?).isSome
  gone : ∀ i ∈ ids, e'.state.bookTag m i = none
  kept : ∀ k i, ¬ (m = k ∧ i ∈ ids) → e'.state.bookTag k i = e.state.bookTag k i

section Cancel

variable {e e' : Engine} {a : AccountAddress} {m : MarketId} {id : OrderId}

/-- **Cancelling a record.** In a market of the engine it succeeds. -/
theorem cancelRecord_tags (he : e.Tidy) (hm : (e.state.orderbooks[m]?).isSome) (id : OrderId)
    (o : Order) : ∃ e', e.cancelRecord m id o = (.ok o.cancel, e') ∧ Untagged m [id] e e' := by
  obtain ⟨b, hb⟩ := Option.isSome_iff_exists.mp (he.venue m hm).2
  have hremoved := removeOrder_spec he.books m id
  have hfiling : OrderMaps.FilingKept e.state.maps (e.state.removeOrder m id).2.maps :=
    filing_removeOrder e.state m id
  have htag : ∀ k i, (e.state.removeOrder m id).2.bookTag k i =
      if m = k ∧ id = i then none else e.state.bookTag k i := by
    intro k i
    unfold bookTag
    rw [hremoved.bookGet]
    by_cases hk : m = k ∧ id = i
    · rw [if_pos hk]
      cases hrec : e.state.getOrder m id with
      | some o => simp [hk]
      | none =>
        -- what has no record has no tag in the book
        have hnone := he.tag_eq m id
        rw [hrec] at hnone
        rw [← hk.1, ← hk.2]
        simpa using hnone.symm
    · rw [if_neg hk, if_neg fun h => hk h.2]
  refine ⟨_, by simp only [cancelRecord, MatchingEngine.removeFromBook, hb]; rfl,
    ⟨hremoved.ok, hremoved.records he.records, hfiling.filed he.filed, ?_, fun k i hi => ?_,
      fun k hk => ?_⟩, hremoved.nextOrderId, hfiling.books, fun i hi => ?_, fun k i hk => ?_⟩
  · funext k i
    rw [htag]
    unfold recordTag
    rw [hremoved.getOrder]
    split
    · rfl
    · exact he.tag_eq k i
  · rw [hremoved.nextOrderId] at hi
    rw [hremoved.bookGet, he.fresh k i hi]
    exact ite_self none
  · obtain ⟨hlt, hsome⟩ := he.venue k ((hfiling.books k).symm.trans hk)
    exact ⟨hlt, (FinMap.isSome_insert hb k _).trans hsome⟩
  · rw [htag, if_pos ⟨rfl, (List.mem_singleton.mp hi).symm⟩]
  · rw [htag, if_neg fun h => hk ⟨h.1, List.mem_singleton.mpr h.2.symm⟩]

/-- **Cancelling.** It fails and leaves everything, or the order was the account's. -/
theorem cancelOrder_tags {r : Except Error Order} (he : e.Tidy)
    (h : e.cancelOrder a m id = (r, e')) :
    e'.Tidy ∧ e'.state.nextOrderId = e.state.nextOrderId ∧
      ((∃ err, r = .error err ∧ e' = e) ∨ ∃ o, r = .ok o ∧ o.tag = e.state.bookTag m id ∧
        Dropped a o.clientOrderId.toList e.state.bookTag e'.state.bookTag) := by
  unfold cancelOrder at h
  cases ho : e.state.getOrder m id with
  | none =>
    simp only [ho] at h
    obtain ⟨rfl, rfl⟩ := Prod.mk.inj h
    exact ⟨he, rfl, .inl ⟨_, rfl, rfl⟩⟩
  | some o =>
    simp only [ho] at h
    split at h
    · obtain ⟨rfl, rfl⟩ := Prod.mk.inj h
      exact ⟨he, rfl, .inl ⟨_, rfl, rfl⟩⟩
    · rename_i howner
      have hm : (e.state.orderbooks[m]?).isSome := by
        rw [← he.books.both]
        obtain ⟨os, hos, -⟩ := Option.bind_eq_some_iff.mp ho
        rw [hos]
        rfl
      obtain ⟨e₁, heq, huntagged⟩ := cancelRecord_tags he hm id o
      obtain ⟨rfl, rfl⟩ := Prod.mk.inj (heq.symm.trans h)
      have htag := he.tag_eq m id
      rw [ho] at htag
      refine ⟨huntagged.tidy, huntagged.next, .inr ⟨_, rfl, htag, ?_⟩⟩
      refine .of_order (o := o.cancel) (not_not.mp howner) htag
        (huntagged.gone id (List.mem_singleton_self id)) fun k i hk => ?_
      exact huntagged.kept k i fun hc => hk ⟨hc.1, List.mem_singleton.mp hc.2⟩

theorem Untagged.trans {ids ids' : List OrderId} {e₁ e₂ : Engine} (h : Untagged m ids e e₁)
    (h' : Untagged m ids' e₁ e₂) : Untagged m (ids ++ ids') e e₂ where
  tidy := h'.tidy
  next := h'.next.trans h.next
  books k := (h'.books k).trans (h.books k)
  gone i hi := by
    by_cases hi' : i ∈ ids'
    · exact h'.gone i hi'
    · rw [h'.kept m i fun hc => hi' hc.2]
      exact h.gone i ((List.mem_append.mp hi).resolve_right hi')
  kept k i hk := by
    rw [h'.kept k i fun hc => hk ⟨hc.1, List.mem_append_right _ hc.2⟩,
      h.kept k i fun hc => hk ⟨hc.1, List.mem_append_left _ hc.2⟩]

theorem cancelRecords_tags {os : List Order} (he : e.Tidy)
    (hm : os ≠ [] → (e.state.orderbooks[m]?).isSome) :
    ∃ e', cancelRecords m os e = (.ok (os.map (·.cancel)), e') ∧
      Untagged m (os.map (·.id)) e e' := by
  induction os generalizing e with
  | nil => exact ⟨e, rfl, he, rfl, fun _ => rfl, fun _ h => absurd h List.not_mem_nil,
      fun _ _ _ => rfl⟩
  | cons o os ih =>
    have hmarket := hm (List.cons_ne_nil _ _)
    obtain ⟨e₁, heq, h1⟩ := cancelRecord_tags he hmarket o.id o
    obtain ⟨e₂, hrest, h2⟩ := ih h1.tidy fun _ => (h1.books m).trans hmarket
    refine ⟨e₂, ?_, h1.trans h2⟩
    simp only [cancelRecords, heq, hrest]
    rfl

/-- The recorded orders of an account in a market. -/
theorem mem_getOrdersByAccount (he : e.Tidy) {o : Order}
    (ho : o ∈ e.state.getOrdersByAccount a m) :
    e.state.getOrder m o.id = some o ∧ o.owner = a := by
  obtain ⟨id, hid, hget⟩ := List.mem_filterMap.mp ho
  obtain rfl : o.id = id := (he.filed.record m id o hget).2.1
  refine ⟨hget, ?_⟩
  have hcount := he.records.index a m o.id
  unfold indexCount ownedBy at hcount
  rw [hget] at hcount
  have hpos : 0 < (e.state.orderIds a m).count o.id := List.count_pos_iff.mpr hid
  by_contra hne
  simp only [Option.any_some, hne, decide_false, Bool.false_eq_true, if_false] at hcount
  omega

/-- **Cancelling all.** -/
theorem cancelAllOrders_tags (he : e.Tidy) (a : AccountAddress) (m : MarketId) :
    ∃ (os : List Order) (e' : Engine), e.cancelAllOrders a m = (.ok os, e') ∧ e'.Tidy ∧
      e'.state.nextOrderId = e.state.nextOrderId ∧
      Dropped a (os.filterMap (·.clientOrderId)) e.state.bookTag e'.state.bookTag := by
  have hown : ∀ o ∈ e.state.getOrdersByAccount a m, o.owner = a ∧ o.tag = e.state.bookTag m o.id :=
    fun o ho => by
      obtain ⟨hget, howner⟩ := mem_getOrdersByAccount he ho
      have htag := he.tag_eq m o.id
      rw [hget] at htag
      exact ⟨howner, htag⟩
  have hm : e.state.getOrdersByAccount a m ≠ [] → (e.state.orderbooks[m]?).isSome := by
    intro hne
    obtain ⟨o, ho⟩ := List.exists_mem_of_ne_nil _ hne
    obtain ⟨os, hos, -⟩ := Option.bind_eq_some_iff.mp (mem_getOrdersByAccount he ho).1
    rw [← he.books.both, hos]
    rfl
  obtain ⟨e', heq, huntagged⟩ := cancelRecords_tags he hm
  have hcloids : (((e.state.getOrdersByAccount a m).map (·.cancel)).filterMap
      (·.clientOrderId)) = (e.state.getOrdersByAccount a m).filterMap (·.clientOrderId) := by
    rw [List.filterMap_map]
    rfl
  refine ⟨_, e', heq, huntagged.tidy, huntagged.next, ?_⟩
  rw [hcloids]
  have htagOf : ∀ o ∈ e.state.getOrdersByAccount a m, ∀ c, o.clientOrderId = some c →
      e.state.bookTag m o.id = some (a, c) := by
    intro o ho c hc
    obtain ⟨howner, htag⟩ := hown o ho
    unfold Order.tag at htag
    rw [hc, howner] at htag
    exact htag.symm
  refine ⟨fun k i => ?_, fun c hc => ?_⟩
  · by_cases hk : m = k ∧ i ∈ (e.state.getOrdersByAccount a m).map (·.id)
    · obtain ⟨rfl, hi⟩ := hk
      have hgone := huntagged.gone i hi
      obtain ⟨o, ho, rfl⟩ := List.mem_map.mp hi
      cases hc : o.clientOrderId with
      | none => exact .inl (hgone.trans ((Order.tag_eq_none.mpr hc).symm.trans (hown o ho).2))
      | some c =>
        exact .inr ⟨hgone, c, List.mem_filterMap.mpr ⟨o, ho, hc⟩, htagOf o ho c hc⟩
    · exact .inl (huntagged.kept k i hk)
  · obtain ⟨o, ho, hoc⟩ := List.mem_filterMap.mp hc
    exact ⟨m, o.id, htagOf o ho c hoc, huntagged.gone o.id (List.mem_map_of_mem ho)⟩

end Cancel

end Engine

end Hypercore
