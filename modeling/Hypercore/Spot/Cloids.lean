import Hypercore.Engine.Cloids
import Hypercore.Spot.Stores
/-!
# Hypercore.Spot.Cloids

Which resting orders of the spot engine have a client order id.

The records and the books of a coherent engine have the same orders (`Coherent`), and every
order that a call leaves comes from one that was there, with the same owner and client order
id (`Sources`), or is the one that was placed. What a placement takes off a book is the maker
of one of its fills; these are passed on unless one of them cannot be paid.
-/

namespace Hypercore

open Exec Int128

namespace SpotEngineState

variable {s s' t : SpotEngineState} {m k : SpotMarketId} {id : OrderId} {a : AccountAddress}

/-- The order that a market's book has under an id. -/
def bookGet (s : SpotEngineState) (m : SpotMarketId) (id : OrderId) : Option Order :=
  (s.orderbooks[m]?).bind (·.get id)

/-- The tag of the order that a market's book has under an id. -/
def bookTag (s : SpotEngineState) : Tags := fun m id => (s.bookGet m id).bind (·.tag)

/-- Records and books give an id the same tag, and every market is one of the spot engine's. -/
structure Tidy (s : SpotEngineState) : Prop where
  coherent : s.Coherent
  tags : ∀ m id, (s.getOrder m id).bind (·.tag) = s.bookTag m id
  /-- A book filled from the records finds every order again. -/
  sides : ∀ m id o, s.getOrder m id = some o → o.OnOwnSide
  venue : ∀ m : SpotMarketId, (s.orderbooks[m]?).isSome → 128 ≤ m

/-- Records and books have an order under the same ids. -/
theorem Coherent.isSome_bookGet (h : s.Coherent) (m : SpotMarketId) (id : OrderId) :
    (s.bookGet m id).isSome = (s.getOrder m id).isSome := by
  unfold bookGet
  cases hb : s.orderbooks[m]? with
  | none =>
    rw [(h.storesAgree m).no_book hb id]
    rfl
  | some b =>
    have hsame := congrArg Option.isSome (h.booked.same m b hb id)
    simpa [inBook, inRecords] using hsame

theorem Coherent.bookGet_eq_none (h : s.Coherent) (hnone : s.getOrder m id = none) :
    s.bookGet m id = none := by
  have hsome := h.isSome_bookGet m id
  rw [hnone] at hsome
  exact Option.isNone_iff_eq_none.mp (Option.isSome_eq_false_iff.mp hsome)

/-- No order has an id that was not given out. -/
theorem Coherent.bookGet_fresh (h : s.Coherent) (hid : s.nextOrderId ≤ id) :
    s.bookGet m id = none := by
  cases ho : s.getOrder m id with
  | none => exact h.bookGet_eq_none ho
  | some o => exact absurd (h.indexed.below m id o ho) (Nat.not_lt.mpr hid)

/-- Every order comes from one with the same tag that was there before, and records stay on
their sides. -/
structure Sources (s s' : SpotEngineState) : Prop where
  record : ∀ m id o', s'.getOrder m id = some o' →
    ∃ o, s.getOrder m id = some o ∧ o'.tag = o.tag ∧ (o.OnOwnSide → o'.OnOwnSide)
  book : ∀ m id o', s'.bookGet m id = some o' → ∃ o, s.bookGet m id = some o ∧ o'.tag = o.tag

namespace Sources

theorem refl (s : SpotEngineState) : Sources s s :=
  ⟨fun _ _ o h => ⟨o, h, rfl, fun hown => hown⟩, fun _ _ o h => ⟨o, h, rfl⟩⟩

theorem trans (h : Sources s s') (h' : Sources s' t) : Sources s t where
  record m id o' ho := by
    obtain ⟨o₁, h1, htag, hown⟩ := h'.record m id o' ho
    obtain ⟨o, h0, htag', hown'⟩ := h.record m id o₁ h1
    exact ⟨o, h0, htag.trans htag', fun h => hown (hown' h)⟩
  book m id o' ho := by
    obtain ⟨o₁, h1, htag⟩ := h'.book m id o' ho
    obtain ⟨o, h0, htag'⟩ := h.book m id o₁ h1
    exact ⟨o, h0, htag.trans htag'⟩

/-- Balances and markets have no orders. -/
theorem of_trades (h : TradesOnly s s') : Sources s s' := by
  obtain ⟨_, _, _, rfl, -⟩ := h
  exact ⟨fun _ _ o h => ⟨o, h, rfl, fun hown => hown⟩, fun _ _ o h => ⟨o, h, rfl⟩⟩

/-- **Sources.** With them, records and books go on having the same tags. -/
theorem tags (h : Sources s s') (hs : ∀ m id, (s.getOrder m id).bind (·.tag) = s.bookTag m id)
    (hc : s'.Coherent) (m : SpotMarketId) (id : OrderId) :
    (s'.getOrder m id).bind (·.tag) = s'.bookTag m id := by
  unfold bookTag at *
  cases hr : s'.getOrder m id with
  | none => rw [hc.bookGet_eq_none hr]
  | some r' =>
    have hsome := hc.isSome_bookGet m id
    rw [hr] at hsome
    obtain ⟨o', ho'⟩ := Option.isSome_iff_exists.mp hsome
    obtain ⟨r, hr₀, hrtag, -⟩ := h.record m id r' hr
    obtain ⟨o, ho₀, hotag⟩ := h.book m id o' ho'
    have hagree := hs m id
    rw [hr₀, ho₀] at hagree
    rw [ho']
    exact hrtag.trans (hagree.trans hotag.symm)

theorem sides (h : Sources s s') (hs : ∀ m id o, s.getOrder m id = some o → o.OnOwnSide)
    (m : SpotMarketId) (id : OrderId) (o : Order) (ho : s'.getOrder m id = some o) :
    o.OnOwnSide := by
  obtain ⟨o₀, ho₀, -, hown⟩ := h.record m id o ho
  exact hown (hs m id o₀ ho₀)

/-- What is still there has its tag. -/
theorem bookTag (h : Sources s s') (hsome : (s'.bookGet m id).isSome) :
    s'.bookTag m id = s.bookTag m id := by
  obtain ⟨o', ho'⟩ := Option.isSome_iff_exists.mp hsome
  obtain ⟨o, ho, htag⟩ := h.book m id o' ho'
  unfold SpotEngineState.bookTag
  rw [ho', ho]
  exact htag

end Sources

/-! ### Removing and restating -/

/-- Every record comes from one with the same tag that was there before. -/
structure RecordSources (s s' : SpotEngineState) : Prop where
  record : ∀ m id o', s'.getOrder m id = some o' →
    ∃ o, s.getOrder m id = some o ∧ o'.tag = o.tag ∧ (o.OnOwnSide → o'.OnOwnSide)

theorem RecordSources.trans (h : RecordSources s s') (h' : RecordSources s' t) :
    RecordSources s t where
  record m id o' ho := by
    obtain ⟨o₁, h1, htag, hown⟩ := h'.record m id o' ho
    obtain ⟨o, h0, htag', hown'⟩ := h.record m id o₁ h1
    exact ⟨o, h0, htag.trans htag', fun h => hown (hown' h)⟩

theorem removeOrder_records (s : SpotEngineState) (m : SpotMarketId) (id : OrderId) :
    RecordSources s (s.removeOrder m id) where
  record k i o' ho' := by
    cases ho : s.getOrder m id with
    | none =>
      rw [removeOrder_of_none ho] at ho'
      exact ⟨o', ho', rfl, fun hown => hown⟩
    | some o =>
      rw [(removeOrder_updates ho).orders] at ho'
      split at ho'
      · rename_i hk
        subst hk
        split at ho'
        · cases ho'
        · exact ⟨o', ho', rfl, fun hown => hown⟩
      · exact ⟨o', ho', rfl, fun hown => hown⟩

theorem removeOrder_sources (s : SpotEngineState) (hwf : s.Booked) (m : SpotMarketId)
    (id : OrderId) : Sources s (s.removeOrder m id) := by
  cases ho : s.getOrder m id with
  | none =>
    rw [removeOrder_of_none ho]
    exact .refl s
  | some o =>
    refine ⟨(removeOrder_records s m id).record, fun k i o' ho' => ?_⟩
    unfold bookGet at *
    rw [(removeOrder_updates ho).books] at ho'
    split at ho'
    · rename_i hk
      subst hk
      obtain ⟨b', hb', hget⟩ := Option.bind_eq_some_iff.mp ho'
      obtain ⟨b, hb, rfl⟩ := Option.map_eq_some_iff.mp hb'
      rw [((hwf.wf m b hb).remove id).2.2] at hget
      split at hget
      · cases hget
      · exact ⟨o', by rw [hb]; exact hget, rfl⟩
    · exact ⟨o', ho', rfl⟩

theorem updateOrderRemaining_records (s : SpotEngineState) (m : SpotMarketId) (id : OrderId)
    (r : Decimal) : RecordSources s (s.updateOrderRemaining m id r) where
  record k i o' ho' := by
    cases ho : s.getOrder m id with
    | none =>
      unfold updateOrderRemaining at ho'
      rw [ho] at ho'
      exact ⟨o', ho', rfl, fun hown => hown⟩
    | some o =>
      rw [(updateOrderRemaining_updates (a := o.owner) ho r).orders] at ho'
      split at ho'
      · rename_i hk
        subst hk
        split at ho'
        · rename_i hi
          subst hi
          obtain rfl := Option.some.inj ho'
          exact ⟨o, ho, rfl, fun hown => hown⟩
        · exact ⟨o', ho', rfl, fun hown => hown⟩
      · exact ⟨o', ho', rfl, fun hown => hown⟩

theorem syncMakers_records (s : SpotEngineState) (m : SpotMarketId) (x : Matched) :
    RecordSources s (s.syncMakers m x) := by
  have hremove : ∀ (ids : List OrderId) (s : SpotEngineState),
      RecordSources s (ids.foldl (fun s id => s.removeOrder m id) s) := by
    intro ids
    induction ids with
    | nil => exact fun s => ⟨fun _ _ o h => ⟨o, h, rfl, fun hown => hown⟩⟩
    | cons id ids ih => exact fun s => (removeOrder_records s m id).trans (ih _)
  have hupdate : ∀ (parts : List (OrderId × Decimal)) (s : SpotEngineState), RecordSources s
      (parts.foldl (fun s p => s.updateOrderRemaining m p.1 p.2) s) := by
    intro parts
    induction parts with
    | nil => exact fun s => ⟨fun _ _ o h => ⟨o, h, rfl, fun hown => hown⟩⟩
    | cons p parts ih => exact fun s => (updateOrderRemaining_records s m p.1 p.2).trans (ih _)
  exact (hremove _ s).trans (hupdate _ _)

/-! ### Matching -/

/-- Market and id of the makers of fills. -/
def makers (fills : List SpotFill) : List (MarketId × OrderId) :=
  fills.map fun f => (f.marketId, f.makerOrderId)

/-- The loop so far: what is left in the book was in it, and the makers that were filled are
those of the fills. -/
structure Traced (m : SpotMarketId) (b : OrderBook) (x : Matched) : Prop where
  source : ∀ id o', x.book.get id = some o' → ∃ o, b.get id = some o ∧ o'.tag = o.tag
  filled : ∀ id ∈ x.filledMakerIds, (m, id) ∈ makers x.fills
  makers : ∀ p ∈ makers x.fills, p.1 = m ∧ (b.get p.2).isSome

theorem traced_start (m : SpotMarketId) (order : Order) (b : OrderBook) :
    Traced m b ⟨order, b, [], [], []⟩ where
  source _ o h := ⟨o, h, rfl⟩
  filled _ h := absurd h List.not_mem_nil
  makers _ h := absurd h List.not_mem_nil

variable {order o : Order} {b : OrderBook} {x : Matched} {config : SpotMarketConfig}
  {r : Except Error (Order × List SpotFill)}
variable {x' : Matched} {s₁ : SpotEngineState} {token : TokenIndex} {reserve : Decimal}
  {os canceled : List Order}

theorem Traced.step {maker : Order} (h : Traced m b x) (hx : Matching order b x)
    (hmaker : x.book.get maker.id = some maker) (hret : matchOne m config x maker = .ok x') :
    Traced m b x' := by
  obtain ⟨quoteSize, -, hret⟩ := bind_inv hret
  obtain ⟨makerFee, -, hret⟩ := bind_inv hret
  obtain ⟨takerFee, -, hret⟩ := bind_inv hret
  obtain ⟨left, -, hret⟩ := bind_inv hret
  obtain ⟨hwf, -, hget⟩ := hx.wf.remove maker.id
  obtain ⟨o, ho, htag⟩ := h.source maker.id maker hmaker
  have hremoved : ∀ id o', (x.book.remove maker.id).2.get id = some o' →
      ∃ o, b.get id = some o ∧ o'.tag = o.tag := by
    intro id o' ho'
    rw [hget] at ho'
    split at ho'
    · cases ho'
    · exact h.source id o' ho'
  have hmakers : ∀ fill : SpotFill, fill.marketId = m → fill.makerOrderId = maker.id →
      (∀ id ∈ x.filledMakerIds, (m, id) ∈ SpotEngineState.makers (x.fills ++ [fill])) ∧
      (m, maker.id) ∈ SpotEngineState.makers (x.fills ++ [fill]) ∧
      ∀ p ∈ SpotEngineState.makers (x.fills ++ [fill]), p.1 = m ∧ (b.get p.2).isSome := by
    intro fill hm hid
    unfold SpotEngineState.makers
    rw [List.map_append]
    refine ⟨fun id hid => List.mem_append_left _ (h.filled id hid),
      List.mem_append_right _ (by simp [hm, hid]), fun p hp => ?_⟩
    rcases List.mem_append.mp hp with hp | hp
    · exact h.makers p hp
    · rw [List.map_singleton, List.mem_singleton] at hp
      subst hp
      exact ⟨hm, by rw [hid, ho]; rfl⟩
  have hfilled : ∀ fill : SpotFill, fill.marketId = m → fill.makerOrderId = maker.id →
      ∀ id ∈ x.filledMakerIds ++ [maker.id],
        (m, id) ∈ SpotEngineState.makers (x.fills ++ [fill]) := by
    intro fill hm hid id hin
    obtain ⟨hbefore, hlast, -⟩ := hmakers fill hm hid
    rcases List.mem_append.mp hin with hin | hin
    · exact hbefore id hin
    · exact List.mem_singleton.mp hin ▸ hlast
  dsimp only at hret
  split at hret
  · obtain rfl := pure_inv hret
    exact ⟨hremoved, hfilled _ (by rfl) (by rfl), (hmakers _ (by rfl) (by rfl)).2.2⟩
  · obtain ⟨makerLeft, -, hret⟩ := bind_inv hret
    split at hret
    · obtain rfl := pure_inv hret
      exact ⟨hremoved, hfilled _ (by rfl) (by rfl), (hmakers _ (by rfl) (by rfl)).2.2⟩
    · obtain ⟨book, hbook, hret⟩ := bind_inv hret
      obtain rfl := pure_inv hret
      refine ⟨fun id o' ho' => ?_, (hmakers _ (by rfl) (by rfl)).1,
        (hmakers _ (by rfl) (by rfl)).2.2⟩
      have hown : Order.OnOwnSide { maker with remainingSize := makerLeft } :=
        (hx.wf.get_spec hmaker).2.2
      rw [(hwf.insert (by rw [hget, if_pos rfl]) hown hbook).2] at ho'
      split at ho'
      · rename_i hid
        obtain rfl := Option.some.inj ho'
        exact ⟨o, hid ▸ ho, htag⟩
      · exact hremoved id o' ho'

/-- **Loop.** -/
theorem Traced.loop {fuel : Nat} (h : Traced m b x) (hx : Matching order b x)
    (hret : matchOrder m config fuel x = .ok x') : Traced m b x' := by
  refine (matchOrder_rule (P := fun x => Traced m b x ∧ Matching order b x) ?_ ⟨h, hx⟩ hret).1
  rintro x maker x' ⟨h, hx⟩ hopen hbest hone
  have hmaker := (hx.wf.best_spec hbest).1
  exact ⟨h.step hx hmaker hone, hx.step hopen hmaker hone⟩

/-- What is gone from the book was filled. -/
theorem Matching.filled_of_gone (h : Matching order b x) (hsome : (b.get id).isSome)
    (hgone : x.book.get id = none) :
    id ∈ x.filledMakerIds := by
  by_contra hid
  have hrests := congrArg Option.isSome (h.rests id)
  have hrestated : ∀ (parts : List (OrderId × Decimal)) (f : OrderId → Option Order),
      (restated f parts id).isSome = (f id).isSome := by
    intro parts
    induction parts with
    | nil => exact fun f => rfl
    | cons p parts ih =>
      intro f
      refine (ih _).trans ?_
      dsimp only
      split
      · exact Option.isSome_map
      · rfl
  rw [hrestated] at hrests
  unfold inBook erased at hrests
  rw [hgone, if_neg hid] at hrests
  simp only [Option.map_none, Option.isSome_map, hsome] at hrests
  cases hrests

/-! ### One order -/

/-- The tag under which an order is registered that was placed: that of a remainder. -/
def placedTag : Except Error (Order × List SpotFill) → Option (AccountAddress × ClientOrderId)
  | .ok (order, _) =>
    if !order.isFilled && !order.remainingSize.isZero then order.tag else none
  | .error _ => none

/-- A fill that is passed on has the order as its maker. -/
def MakerIn (r : Except Error (Order × List SpotFill)) (m : MarketId) (id : OrderId) : Prop :=
  ∃ order fills, r = .ok (order, fills) ∧ (m, id) ∈ makers fills

/-- What the match of an order must avoid: a remainder with a client order id that does not
rest, or that cannot be found again, and makers with one whose fills cannot all be paid. -/
structure MatchFollows (s : SpotEngineState) (m : SpotMarketId) (market : SpotMarket)
    (order : Order) (book : OrderBook) (x : Matched) : Prop where
  rests : x.remaining.isFilled = false →
    if order.shouldRest then order.OnOwnSide else order.clientOrderId = none
  paid : ∀ err s', applyFills market.config x.fills ((s.setOrderbook m x.book).syncMakers m x) =
    .ok (.error err, s') → ∀ id ∈ x.filledMakerIds, ∀ o, book.get id = some o →
      o.clientOrderId = none

/-- What the execution of an account's order with an id in a market does to the tags. -/
structure ExecutedTags (a : AccountAddress) (m : SpotMarketId) (id : OrderId)
    (r : Except Error (Order × List SpotFill)) (s s' : SpotEngineState) : Prop where
  tidy : s'.Tidy
  next : s'.nextOrderId = s.nextOrderId
  tag : ∀ k i, ¬ (m = k ∧ id = i) → s'.bookTag k i = s.bookTag k i ∨
    s'.bookGet k i = none ∧ MakerIn r k i
  own : s'.bookTag m id = placedTag r
  order : ∀ o fills, r = .ok (o, fills) → o.owner = a ∧ o.id = id ∧
    ∀ p ∈ makers fills, p.1 = m ∧ (s.bookGet m p.2).isSome

/-- What happened to a tag, when it was not lost without a fill. -/
theorem Sources.tag_cases (h : Sources s s')
    (hgone : ∀ k i, (s.bookGet k i).isSome → s'.bookGet k i = none →
      s.bookTag k i = none ∨ MakerIn r k i) (k : SpotMarketId) (i : OrderId) :
    s'.bookTag k i = s.bookTag k i ∨ s'.bookGet k i = none ∧ MakerIn r k i := by
  cases hs' : s'.bookGet k i with
  | some o' => exact .inl (h.bookTag (by rw [hs']; rfl))
  | none =>
    have hnone : s'.bookTag k i = none := by
      unfold SpotEngineState.bookTag
      rw [hs']
      rfl
    cases hs : s.bookGet k i with
    | none =>
      left
      rw [hnone]
      unfold SpotEngineState.bookTag
      rw [hs]
      rfl
    | some o =>
      rcases hgone k i (by rw [hs]; rfl) hs' with htag | hmaker
      · exact .inl (hnone.trans htag.symm)
      · exact .inr ⟨rfl, hmaker⟩

/-- **Matching and bringing the records in line.** -/
theorem Tidy.matched (h : s.Tidy) (hb : s.orderbooks[m]? = some b) (hx : Matching o b x)
    (ht : Traced m b x) (hnew : ∀ k, s.getOrder k o.id = none) :
    ((s.setOrderbook m x.book).syncMakers m x).Coherent ∧
      Sources s ((s.setOrderbook m x.book).syncMakers m x) ∧
      (∀ k i, ((s.setOrderbook m x.book).syncMakers m x).bookGet k i =
        if m = k then x.book.get i else s.bookGet k i) ∧
      (∀ k, ((s.setOrderbook m x.book).syncMakers m x).getOrder k o.id = none) ∧
      SameDesk s ((s.setOrderbook m x.book).syncMakers m x) := by
  obtain ⟨hcoherent, hdesk⟩ := h.coherent.matched hb hx
  have hfresh := hx.unrecorded (m := m) hnew
  have hline := hx.inLine s m
  have hget : ∀ k i, ((s.setOrderbook m x.book).syncMakers m x).bookGet k i =
      if m = k then x.book.get i else s.bookGet k i := by
    intro k i
    unfold bookGet
    rw [hline.books, get_setOrderbook]
    split <;> rfl
  refine ⟨hcoherent, ⟨fun k i o' ho' => ?_, fun k i o' ho' => ?_⟩, hget, hfresh, hdesk⟩
  · exact (syncMakers_records (s.setOrderbook m x.book) m x).record k i o' ho'
  · rw [hget] at ho'
    split at ho'
    · rename_i hk
      subst hk
      obtain ⟨o₀, ho₀, htag⟩ := ht.source i o' ho'
      exact ⟨o₀, by unfold bookGet; rw [hb]; exact ho₀, htag⟩
    · exact ⟨o', ho', rfl⟩

/-- An order is added to the records and the book of its market. -/
theorem addOrder_gets (h : s.Coherent) (hfresh : s.getOrder o.marketId o.id = none)
    (hown : o.OnOwnSide) (hmarket : (s.markets[o.marketId]?).isSome = true)
    (hret : s.addOrder o = .ok s') :
    (∀ k i, s'.getOrder k i = if o.marketId = k ∧ o.id = i then some o else s.getOrder k i) ∧
      (∀ k i, s'.bookGet k i = if o.marketId = k ∧ o.id = i then some o else s.bookGet k i) ∧
      SameDesk s s' ∧
      ∀ k : SpotMarketId, (s'.orderbooks[k]?).isSome = (s.orderbooks[k]?).isSome := by
  have hbook := (h.listed o.marketId).trans hmarket
  obtain ⟨b, hb⟩ := Option.isSome_iff_exists.mp hbook
  obtain ⟨os, hos⟩ :=
    Option.isSome_iff_exists.mp ((h.booked.paired o.marketId).symm.trans hbook)
  obtain ⟨b', hb', hu⟩ := addOrder_updates hos hb hret
  have hnone : b.get o.id = none := by
    have hget := h.bookGet_eq_none hfresh
    unfold bookGet at hget
    rw [hb] at hget
    exact hget
  obtain ⟨-, hget⟩ := (h.booked.wf _ b hb).insert hnone hown hb'
  refine ⟨fun k i => ?_, fun k i => ?_, hu.desk, fun k => ?_⟩
  · rw [hu.orders]
    by_cases hk : o.marketId = k
    · subst hk
      simp only [if_true, true_and]
    · simp only [hk, false_and, if_false]
  · unfold bookGet
    rw [hu.books]
    by_cases hk : o.marketId = k
    · subst hk
      rw [if_pos rfl, hb, Option.map_some, Option.bind_some, Option.bind_some, hget]
      simp only [true_and]
    · simp only [hk, false_and, if_false]
  · rw [hu.books]
    split
    · exact Option.isSome_map
    · rfl

/-- Once its fills are applied: what the book of a market has lost was filled. -/
structure Filled (s : SpotEngineState) (m : SpotMarketId) (o : Order) (b : OrderBook)
    (x : Matched) (s₁ : SpotEngineState) : Prop where
  tidy : s₁.Tidy
  sources : Sources s s₁
  next : s₁.nextOrderId = s.nextOrderId
  listed : ∀ k : SpotMarketId, (s₁.markets[k]?).isSome = (s.markets[k]?).isSome
  gone : ∀ k i, (s.bookGet k i).isSome → s₁.bookGet k i = none →
    m = k ∧ i ∈ x.filledMakerIds ∧ ∃ o₀, b.get i = some o₀ ∧ s.bookTag k i = o₀.tag
  record : ∀ k, s₁.getOrder k o.id = none
  new : ∀ k, s₁.bookGet k o.id = none

theorem Tidy.filled {r : Except Error Unit} (h : s.Tidy) (hb : s.orderbooks[m]? = some b)
    (hx : Matching o b x) (ht : Traced m b x) (hnew : ∀ k, s.getOrder k o.id = none)
    (hfills : applyFills config x.fills ((s.setOrderbook m x.book).syncMakers m x) = .ok (r, s₁)) :
    Filled s m o b x s₁ := by
  obtain ⟨hcoherent, hsources, hget, hfresh, hdesk⟩ := h.matched hb hx ht hnew
  have htrades := applyFills_trades hfills
  have hcoherent₁ : s₁.Coherent := hcoherent.trades htrades
  have hsources₁ : Sources s s₁ := hsources.trans (.of_trades htrades)
  obtain ⟨_, _, _, rfl, hmarkets⟩ := htrades
  have hlisted := fun k => (hmarkets k).trans (by rw [hdesk.markets])
  refine ⟨⟨hcoherent₁, hsources₁.tags h.tags hcoherent₁, hsources₁.sides h.sides,
      fun k hk => h.venue k ?_⟩, hsources₁,
    hdesk.nextOrderId, hlisted, fun k i hsome hnone => ?_, hfresh, fun k => ?_⟩
  · rw [h.coherent.listed, ← hlisted k, ← hcoherent₁.listed]
    exact hk
  · replace hnone := (hget k i).symm.trans hnone
    split at hnone
    · rename_i hk
      subst hk
      obtain ⟨o₀, ho₀⟩ := Option.isSome_iff_exists.mp hsome
      have hbook : s.bookGet m i = b.get i := by
        unfold bookGet
        rw [hb]
        rfl
      rw [hbook] at hsome
      refine ⟨rfl, hx.filled_of_gone hsome hnone, o₀, hbook.symm.trans ho₀, ?_⟩
      unfold bookTag
      rw [ho₀]
      rfl
    · rw [hnone] at hsome
      cases hsome
  · exact hcoherent₁.bookGet_eq_none (hfresh k)

/-- A remainder that rests is under its own id, with its tag. -/
theorem Tidy.addOrder (h : s.Tidy) (hfresh : s.getOrder o.marketId o.id = none)
    (hid : o.id < s.nextOrderId) (hown : o.OnOwnSide)
    (hmarket : (s.markets[o.marketId]?).isSome = true) (hret : s.addOrder o = .ok s') :
    s'.Tidy ∧ s'.nextOrderId = s.nextOrderId ∧ ∀ k i, s'.bookGet k i =
      if o.marketId = k ∧ o.id = i then some o else s.bookGet k i := by
  obtain ⟨hget, hbook, hdesk, hbooks⟩ := addOrder_gets h.coherent hfresh hown hmarket hret
  refine ⟨⟨h.coherent.addOrder hfresh hid hown hmarket hret, fun k i => ?_, fun k i o' ho' => ?_,
    fun k hk => ?_⟩, hdesk.nextOrderId, hbook⟩
  · unfold bookTag
    rw [hget, hbook]
    split
    · rfl
    · exact h.tags k i
  · rw [hget] at ho'
    split at ho'
    · obtain rfl := Option.some.inj ho'
      exact hown
    · exact h.sides k i o' ho'
  · exact h.venue k ((hbooks k).symm.trans hk)

/-- **The remainder.** It rests, or has no client order id, or there is none. -/
theorem Filled.settleRemaining (h : Filled s m o b x s₁) (hid : o.id < s.nextOrderId)
    (hm : o.marketId = m) (hmarket : (s.markets[m]?).isSome = true)
    (htaker : ∃ remainingSize status, x.remaining = { o with remainingSize, status })
    (hrests : x.remaining.isFilled = false →
      if o.shouldRest then o.OnOwnSide else o.clientOrderId = none)
    (hret : s₁.settleRemaining x.remaining token reserve x.fills = .ok s') :
    s'.Tidy ∧ s'.nextOrderId = s₁.nextOrderId ∧
      (∀ k i, ¬ (m = k ∧ o.id = i) → s'.bookGet k i = s₁.bookGet k i) ∧
      s'.bookTag m o.id = placedTag (.ok (x.remaining, x.fills)) := by
  obtain ⟨size, status, htaker⟩ := htaker
  have htag : x.remaining.tag = o.tag := by rw [htaker]; rfl
  have hkept : ∀ s₂ : SpotEngineState, TradesOnly s₁ s₂ →
      placedTag (.ok (x.remaining, x.fills)) = none → s₂.Tidy ∧
      s₂.nextOrderId = s₁.nextOrderId ∧
      (∀ k i, ¬ (m = k ∧ o.id = i) → s₂.bookGet k i = s₁.bookGet k i) ∧
      s₂.bookTag m o.id = placedTag (.ok (x.remaining, x.fills)) := by
    intro s₂ htrades hnone
    have hcoherent := h.tidy.coherent.trades htrades
    obtain ⟨_, _, _, rfl, -⟩ := htrades
    refine ⟨⟨hcoherent, h.tidy.tags, h.tidy.sides, h.tidy.venue⟩, rfl, fun _ _ _ => rfl, ?_⟩
    rw [hnone]
    show (s₁.bookGet m o.id).bind (·.tag) = none
    rw [h.new]
    rfl
  obtain ⟨filled, -, hret⟩ := bind_inv hret
  obtain ⟨left, -, hret⟩ := bind_inv hret
  have hzero : x.remaining.remainingSize.isZero = x.remaining.isFilled := rfl
  cases hfilled : x.remaining.isFilled with
  | true =>
    have hnone : placedTag (.ok (x.remaining, x.fills)) = none := by
      unfold placedTag
      simp [hfilled]
    simp only [hfilled, Bool.not_true, Bool.false_and, Bool.false_eq_true, if_false] at hret
    obtain rfl := pure_inv hret
    exact hkept s₁ (BalancesOnly.refl _).trades hnone
  | false =>
    have hplaced : placedTag (.ok (x.remaining, x.fills)) = o.tag := by
      unfold placedTag
      simp [hfilled, hzero, htag]
    have hcond := hrests hfilled
    have hshould : x.remaining.shouldRest = o.shouldRest := by rw [htaker]; rfl
    rw [hfilled, hshould] at hret
    cases hs : o.shouldRest with
    | true =>
      rw [hs] at hret hcond
      simp only [Bool.not_false, Bool.true_and, if_true] at hret hcond
      rw [htaker] at hret
      obtain ⟨htidy, hnext, hget⟩ := h.tidy.addOrder
        (o := { o with remainingSize := size, status := status }) (h.record _)
        (by rw [h.next]; exact hid) hcond (by rw [h.listed, hm]; exact hmarket) hret
      refine ⟨htidy, hnext, fun k i hne => ?_, ?_⟩
      · rw [hget, if_neg (hm ▸ hne)]
      · rw [hplaced]
        unfold bookTag
        rw [hget, if_pos ⟨hm, rfl⟩]
        rfl
    | false =>
      rw [hs] at hret hcond
      have hnone : placedTag (.ok (x.remaining, x.fills)) = none := by
        rw [hplaced]
        exact Order.tag_eq_none.mpr hcond
      simp only [Bool.not_false, Bool.true_and, Bool.false_eq_true, if_false] at hret
      split at hret
      · exact hkept s' (releaseBalance_only hret).trades hnone
      · obtain rfl := pure_inv hret
        exact hkept s₁ (BalancesOnly.refl _).trades hnone

/-- **Execution.** -/
theorem executeOrder_tags {market : SpotMarket} (h : s.Tidy) (hnew : ∀ k, s.getOrder k o.id = none)
    (hid : o.id < s.nextOrderId) (hm : o.marketId = m) (hmarket : (s.markets[m]?).isSome = true)
    (hcond : ∀ book x, s.orderbooks[m]? = some book →
      matchOrder m market.config (turns o book) ⟨o, book, [], [], []⟩ = .ok x →
        MatchFollows s m market o book x)
    (hret : s.executeOrder m market o token reserve = .ok (r, s')) :
    ExecutedTags o.owner m o.id r s s' := by
  unfold SpotEngineState.executeOrder at hret
  cases hb : s.orderbooks[m]? with
  | none =>
    rw [← h.coherent.listed, hb] at hmarket
    cases hmarket
  | some b =>
    simp only [hb] at hret
    obtain ⟨x, hx, hret⟩ := bind_inv hret
    obtain ⟨⟨r₁, s₁⟩, h1, hret⟩ := bind_inv hret
    have hc := hcond b x hb hx
    have hwf := h.coherent.booked.wf m b hb
    have hmatching := (@matching_start o b hwf).loop hx
    have htraced := (traced_start m o b).loop (matching_start hwf) hx
    have hfilled := h.filled hb hmatching htraced hnew h1
    cases r₁ with
    | error err =>
      obtain ⟨rfl, rfl⟩ := pair_inv hret
      refine ⟨hfilled.tidy, hfilled.next,
        fun k i _ => hfilled.sources.tag_cases (fun k i hsome hnone => ?_) k i, ?_,
        fun _ _ h => by cases h⟩
      · obtain ⟨rfl, hin, o₀, ho₀, htag⟩ := hfilled.gone k i hsome hnone
        exact .inl (htag.trans (Order.tag_eq_none.mpr (hc.paid err _ h1 i hin o₀ ho₀)))
      · unfold bookTag
        rw [hfilled.new]
        rfl
    | ok u =>
      obtain ⟨s₂, h2, hret⟩ := bind_inv hret
      obtain ⟨rfl, rfl⟩ := pair_inv hret
      obtain ⟨htidy, hnext, hother, hown⟩ :=
        hfilled.settleRemaining hid hm hmarket hmatching.taker hc.rests h2
      obtain ⟨size, status, htaker⟩ := hmatching.taker
      refine ⟨htidy, hnext.trans hfilled.next, fun k i hne => ?_, hown, ?_⟩
      · have hcases := hfilled.sources.tag_cases (r := .ok (x.remaining, x.fills))
          (fun k i hsome hnone => by
            obtain ⟨rfl, hin, -⟩ := hfilled.gone k i hsome hnone
            exact .inr ⟨_, _, rfl, htraced.filled i hin⟩) k i
        unfold bookTag at *
        rw [hother k i hne]
        exact hcases
      · rintro o₁ fills ⟨⟩
        refine ⟨by rw [htaker], by rw [htaker], fun p hp => ?_⟩
        have hbook : s.bookGet m p.2 = b.get p.2 := by
          unfold bookGet
          rw [hb]
          rfl
        rw [hbook]
        exact htraced.makers p hp

/-! ### Placements -/

theorem Tidy.trades (h : s.Tidy) (ht : TradesOnly s s') :
    s'.Tidy ∧ s'.nextOrderId = s.nextOrderId ∧ s'.bookTag = s.bookTag ∧
      (∀ k i, s'.bookGet k i = s.bookGet k i) := by
  have hcoherent := h.coherent.trades ht
  obtain ⟨_, _, _, rfl, -⟩ := ht
  exact ⟨⟨hcoherent, h.tags, h.sides, h.venue⟩, rfl, rfl, fun _ _ => rfl⟩

/-- What a placement must avoid, once its reserve and its id are taken. -/
def PlaceFollows (s : SpotEngineState) (a : AccountAddress) (m : SpotMarketId) (q : OrderRequest)
    (t : Timestamp) : Prop :=
  ∀ market token reserve s₁ book x, s.getMarket m = some market →
    reserveFor market.config q.side q.size q.price = .ok (token, reserve) →
    s.reserveBalance a token reserve = .ok (true, s₁) → s.orderbooks[m]? = some book →
    let order := Order.new s.nextOrderId a q t
    matchOrder m market.config (turns order book) ⟨order, book, [], [], []⟩ = .ok x →
      MatchFollows { s₁ with nextOrderId := s.nextOrderId + 1 } m market order book x

instance (s : SpotEngineState) (m : SpotMarketId) (market : SpotMarket) (order : Order)
    (book : OrderBook) (x : Matched) : Decidable (MatchFollows s m market order book x) :=
  let paid (y : Except Error Unit × SpotEngineState) : Prop := match y with
    | (.error _, _) => ∀ id ∈ x.filledMakerIds, ∀ o ∈ book.get id, o.clientOrderId = none
    | (.ok _, _) => True
  have : DecidablePred paid := fun y => match y with
    | (.error _, _) => inferInstanceAs (Decidable (∀ id ∈ _, ∀ o ∈ _, _))
    | (.ok _, _) => .isTrue trivial
  decidable_of_iff ((x.remaining.isFilled = false →
        if order.shouldRest then order.OnOwnSide else order.clientOrderId = none) ∧
      After (applyFills market.config x.fills ((s.setOrderbook m x.book).syncMakers m x)) paid)
    ⟨fun h => ⟨h.1, fun err s' hs => h.2 (.error err, s') hs⟩,
      fun h => ⟨h.rests, fun y hy => by
        obtain ⟨r, s'⟩ := y
        cases r with
        | error err => exact h.paid err s' hy
        | ok u => trivial⟩⟩

instance (s : SpotEngineState) (a : AccountAddress) (m : SpotMarketId) (q : OrderRequest)
    (t : Timestamp) : Decidable (s.PlaceFollows a m q t) :=
  let order := Order.new s.nextOrderId a q t
  decidable_of_iff (∀ market ∈ s.getMarket m,
      After (reserveFor market.config q.side q.size q.price) fun tr =>
      After (s.reserveBalance a tr.1 tr.2) fun rs => rs.1 = true →
      ∀ book ∈ s.orderbooks[m]?,
      After (matchOrder m market.config (turns order book) ⟨order, book, [], [], []⟩) fun x =>
        MatchFollows { rs.2 with nextOrderId := s.nextOrderId + 1 } m market order book x)
    ⟨fun h market token reserve s₁ book x hm hr hs hb hx =>
        h market hm (token, reserve) hr (true, s₁) hs rfl book hb x hx,
      fun h market hm tr hr rs hs htrue book hb x hx => by
        obtain ⟨token, reserve⟩ := tr
        obtain ⟨reserved, s₁⟩ := rs
        subst htrue
        exact h market token reserve s₁ book x hm hr hs hb hx⟩

/-- What a placement does to the tags. -/
structure PlacedTags (a : AccountAddress) (m : SpotMarketId)
    (r : Except Error (Order × List SpotFill)) (s s' : SpotEngineState) : Prop where
  tidy : s'.Tidy
  next : s.nextOrderId ≤ s'.nextOrderId
  tag : ∀ k i, i < s.nextOrderId → s'.bookTag k i = s.bookTag k i ∨
    s'.bookGet k i = none ∧ MakerIn r k i
  placed : ∀ k i, s.nextOrderId ≤ i →
    s'.bookTag k i = Engine.newTag m s.nextOrderId (placedTag r) k i
  order : ∀ o fills, r = .ok (o, fills) → o.owner = a ∧ o.id = s.nextOrderId ∧
    s.nextOrderId < s'.nextOrderId ∧ ∀ p ∈ makers fills, p.1 = m ∧ p.2 < s.nextOrderId

theorem bookTag_fresh (h : s.Tidy) (hid : s.nextOrderId ≤ id) : s.bookTag m id = none := by
  unfold bookTag
  rw [h.coherent.bookGet_fresh hid]
  rfl

/-- **Placement.** -/
theorem placeOrder_tags {q : OrderRequest} {time : Timestamp} (h : s.Tidy) (hm : q.marketId = m)
    (hcond : s.PlaceFollows a m q time) (hret : s.placeOrder a m q time = .ok (r, s')) :
    PlacedTags a m r s s' := by
  rcases placeOrder_cases hret with
    ⟨rfl, err, rfl⟩ | ⟨s₁, market, token, reserve, hmarket, -, hreserve, h1, hrun⟩
  · refine ⟨h, le_rfl, fun k i _ => .inl rfl, fun k i hi => ?_, fun _ _ h => by cases h⟩
    rw [show placedTag (.error err) = none from rfl, Engine.newTag_none]
    exact bookTag_fresh h hi
  have htrades := (reserveBalance_only h1).trades
  obtain ⟨htidy₁, hnext₁, htag₁, hget₁⟩ := h.trades htrades
  rw [← hnext₁] at hrun
  have htidy₂ : Tidy { s₁ with nextOrderId := s₁.nextOrderId + 1 } :=
    ⟨htidy₁.coherent.takeId, htidy₁.tags, htidy₁.sides, htidy₁.venue⟩
  have hlisted : (s₁.markets[m]?).isSome = true := by
    obtain ⟨_, _, rfl⟩ := reserveBalance_only h1
    rw [show s.markets[m]? = some market from hmarket]
    rfl
  have hbooks : s₁.orderbooks = s.orderbooks := by
    obtain ⟨_, _, rfl⟩ := reserveBalance_only h1
    rfl
  have hexec := executeOrder_tags (o := .new s₁.nextOrderId a q time) htidy₂
    htidy₁.coherent.unused
    (Nat.lt_succ_self _) hm hlisted (fun book x hb hx => by
      have hfollows := hcond market token reserve s₁ book x hmarket hreserve h1
        ((congrArg (·[m]?) hbooks).symm.trans hb)
      rw [← hnext₁] at hfollows
      exact hfollows hx) hrun
  have hgrown : s'.nextOrderId = s.nextOrderId + 1 := by
    rw [← hnext₁]
    exact hexec.next
  have hfreshGet : ∀ k i, s.nextOrderId ≤ i → s.bookGet k i = none :=
    fun k i hi => h.coherent.bookGet_fresh hi
  have htagOf : ∀ k i, ¬ (m = k ∧ s.nextOrderId = i) → s'.bookTag k i = s.bookTag k i ∨
      s'.bookGet k i = none ∧ MakerIn r k i := by
    intro k i hne
    rcases hexec.tag k i (by rw [← hnext₁] at hne; exact hne) with hsame | hlost
    · exact .inl (hsame.trans (congrFun (congrFun htag₁ k) i))
    · exact .inr hlost
  refine ⟨hexec.tidy, by rw [hgrown]; exact Nat.le_succ _,
    fun k i hi => htagOf k i fun hc => absurd hc.2 (Nat.ne_of_gt hi), fun k i hi => ?_,
    fun o fills hr => ?_⟩
  · unfold Engine.newTag
    split
    · rename_i hc
      obtain ⟨rfl, rfl⟩ := hc
      rw [← hnext₁]
      exact hexec.own
    · rename_i hc
      rcases htagOf k i hc with hsame | ⟨hnone, -⟩
      · rw [hsame]
        exact bookTag_fresh h hi
      · unfold bookTag
        rw [hnone]
        rfl
  · obtain ⟨howner, ho, hmakers⟩ := hexec.order o fills hr
    refine ⟨howner, ho.trans hnext₁, by rw [hgrown]; exact Nat.lt_succ_self _, fun p hp => ?_⟩
    obtain ⟨hpm, hsome⟩ := hmakers p hp
    refine ⟨hpm, ?_⟩
    by_contra hge
    replace hsome : (s₁.bookGet m p.2).isSome = true := hsome
    rw [hget₁, hfreshGet m p.2 (Nat.le_of_not_lt hge)] at hsome
    cases hsome

/-! ### Cancellations -/

theorem Tidy.removeOrder (h : s.Tidy) (m : SpotMarketId) (id : OrderId) :
    (s.removeOrder m id).Tidy ∧ (s.removeOrder m id).nextOrderId = s.nextOrderId ∧
      ∀ k i, (s.removeOrder m id).bookTag k i =
        if m = k ∧ i = id then none else s.bookTag k i := by
  have hcoherent := h.coherent.removeOrder m id
  have hsources := removeOrder_sources s h.coherent.booked m id
  cases ho : s.getOrder m id with
  | none =>
    rw [removeOrder_of_none ho] at hcoherent ⊢
    refine ⟨h, rfl, fun k i => ?_⟩
    split
    · rename_i hk
      obtain ⟨rfl, rfl⟩ := hk
      unfold bookTag
      rw [h.coherent.bookGet_eq_none ho]
      rfl
    · rfl
  | some o =>
    have hu := removeOrder_updates ho
    refine ⟨⟨hcoherent, hsources.tags h.tags hcoherent, hsources.sides h.sides,
      fun k hk => h.venue k ?_⟩,
      hu.desk.nextOrderId, fun k i => ?_⟩
    · rw [hu.books] at hk
      split at hk
      · rwa [Option.isSome_map] at hk
      · exact hk
    · unfold bookTag bookGet
      rw [hu.books]
      by_cases hk : m = k
      · subst hk
        rw [if_pos rfl]
        cases hb : s.orderbooks[m]? with
        | none => simp
        | some b =>
          rw [Option.map_some, Option.bind_some, ((h.coherent.booked.wf m b hb).remove id).2.2]
          by_cases hi : id = i
          · simp [hi]
          · simp [hi, Ne.symm hi]
      · simp [hk]

/-- **Cancelling.** It fails and leaves everything, or the order was the account's. -/
theorem cancelOrder_tags {r : Except Error Order} (h : s.Tidy)
    (hret : s.cancelOrder a m id = .ok (r, s')) :
    s'.Tidy ∧ s'.nextOrderId = s.nextOrderId ∧
      ((∃ err, r = .error err ∧ s' = s) ∨ ∃ o, r = .ok o ∧ o.owner = a ∧
        o.tag = s.bookTag m id ∧ Dropped a o.clientOrderId.toList s.bookTag s'.bookTag) := by
  unfold SpotEngineState.cancelOrder at hret
  split at hret
  · obtain ⟨rfl, rfl⟩ := pair_inv hret
    exact ⟨h, rfl, .inl ⟨_, rfl, rfl⟩⟩
  rename_i o ho
  split at hret
  · obtain ⟨rfl, rfl⟩ := pair_inv hret
    exact ⟨h, rfl, .inl ⟨_, rfl, rfl⟩⟩
  rename_i howner
  split at hret
  · obtain ⟨rfl, rfl⟩ := pair_inv hret
    exact ⟨h, rfl, .inl ⟨_, rfl, rfl⟩⟩
  obtain ⟨⟨token, amount⟩, -, hret⟩ := bind_inv hret
  obtain ⟨s₁, h1, hret⟩ := bind_inv hret
  obtain ⟨rfl, rfl⟩ := pair_inv hret
  obtain ⟨htidy₁, hnext₁, htag₁, -⟩ := h.trades (releaseBalance_only h1).trades
  obtain ⟨htidy, hnext, htag⟩ := htidy₁.removeOrder m id
  have hown : o.tag = s.bookTag m id := by
    have hagree := h.tags m id
    rw [ho] at hagree
    exact hagree
  refine ⟨htidy, hnext.trans hnext₁, .inr ⟨_, rfl, not_not.mp howner, hown, ?_⟩⟩
  refine .of_order (o := o.cancel) (not_not.mp howner) hown ?_ fun k i hk => ?_
  · rw [htag, if_pos ⟨rfl, rfl⟩]
  · rw [htag, if_neg hk, htag₁]

theorem cancelOrders_tags (h : s.Tidy) (hret : cancelOrders a m os s = .ok (canceled, s')) :
    s'.Tidy ∧ s'.nextOrderId = s.nextOrderId ∧
      Dropped a (canceled.filterMap (·.clientOrderId)) s.bookTag s'.bookTag := by
  induction os generalizing s canceled with
  | nil =>
    obtain ⟨rfl, rfl⟩ := pair_inv hret
    exact ⟨h, rfl, .refl a _⟩
  | cons o os ih =>
    obtain ⟨⟨r, s₁⟩, h1, hmore⟩ := bind_inv hret
    obtain ⟨⟨rest, s₂⟩, h2, hend⟩ := bind_inv hmore
    obtain rfl : s₂ = s' := by cases r <;> exact (pair_inv hend).2
    obtain ⟨htidy, hnext, hcases⟩ := cancelOrder_tags h h1
    obtain ⟨htidy₂, hnext₂, hdropped⟩ := ih htidy h2
    rcases hcases with ⟨err, rfl, rfl⟩ | ⟨c, rfl, -, -, hfirst⟩
    · obtain ⟨rfl, -⟩ := pair_inv hend
      exact ⟨htidy₂, hnext₂, hdropped⟩
    · obtain ⟨rfl, -⟩ := pair_inv hend
      refine ⟨htidy₂, hnext₂.trans hnext, ?_⟩
      have hcloids : (c :: rest).filterMap (·.clientOrderId) =
          c.clientOrderId.toList ++ rest.filterMap (·.clientOrderId) := by
        rw [List.filterMap_cons]
        cases c.clientOrderId <;> rfl
      rw [hcloids]
      exact hfirst.trans hdropped

/-- Nothing is lost of an account without client order ids in the market. -/
theorem cancelOrders_untagged (h : s.Tidy) (hnone : ∀ id c, s.bookTag m id ≠ some (a, c))
    (hret : cancelOrders a m os s = .ok (canceled, s')) :
    canceled.filterMap (·.clientOrderId) = [] := by
  induction os generalizing s s' canceled with
  | nil =>
    obtain ⟨rfl, -⟩ := pair_inv hret
    rfl
  | cons o os ih =>
    obtain ⟨⟨r, s₁⟩, h1, hmore⟩ := bind_inv hret
    obtain ⟨⟨rest, s₂⟩, h2, hend⟩ := bind_inv hmore
    obtain ⟨htidy, -, hcases⟩ := cancelOrder_tags h h1
    rcases hcases with ⟨err, rfl, rfl⟩ | ⟨x, rfl, howner, htag, hdropped⟩
    · obtain ⟨rfl, -⟩ := pair_inv hend
      exact ih htidy hnone h2
    · obtain ⟨rfl, -⟩ := pair_inv hend
      have hcloid : x.clientOrderId = none := by
        by_contra hne
        obtain ⟨c, hc⟩ := Option.ne_none_iff_exists'.mp hne
        unfold Order.tag at htag
        rw [hc, howner] at htag
        exact hnone o.id c htag.symm
      rw [hcloid] at hdropped
      rw [List.filterMap_cons_none hcloid]
      refine ih htidy (fun i c hc => ?_) h2
      rcases hdropped.tag m i with hsame | ⟨-, c', hin, -⟩
      · exact hnone i c (hsame.symm.trans hc)
      · cases hin

/-! ### Deployments and restores -/

/-- No orders yet, and the next market is one of the spot engine's. -/
structure Blank (s : SpotEngineState) : Prop where
  coherent : s.Coherent
  record : ∀ m id, s.getOrder m id = none
  venue : ∀ m : SpotMarketId, (s.orderbooks[m]?).isSome → 128 ≤ m
  market : 128 ≤ s.nextMarketId

theorem Blank.tidy (h : s.Blank) : s.Tidy where
  coherent := h.coherent
  tags m id := by
    unfold bookTag
    rw [h.record, h.coherent.bookGet_eq_none (h.record m id)]
  sides m id o ho := by
    rw [h.record] at ho
    cases ho
  venue := h.venue

theorem Blank.bookTag (h : s.Blank) (m : SpotMarketId) (id : OrderId) :
    s.bookTag m id = none := by
  unfold SpotEngineState.bookTag
  rw [h.coherent.bookGet_eq_none (h.record m id)]
  rfl

theorem blank_withUnifiedState (u : UnifiedState) : Blank (.withUnifiedState u) where
  coherent := coherent_withUnifiedState u
  record m id := by simp [withUnifiedState, getOrder]
  venue m h := by simp [withUnifiedState] at h
  market := UInt8.le_refl _

theorem Blank.deployToken {params : SpotTokenDeployParams} {r : Except Error SpotToken}
    (h : s.Blank) (hret : s.deployToken params a = .ok (r, s')) : s'.Blank := by
  have hcoherent := h.coherent.deployToken hret
  unfold SpotEngineState.deployToken at hret
  split at hret
  · obtain ⟨-, rfl⟩ := pair_inv hret
    exact h
  obtain ⟨needed, -, hret⟩ := bind_inv hret
  split at hret
  · obtain ⟨-, rfl⟩ := pair_inv hret
    exact h
  obtain ⟨next, -, hret⟩ := bind_inv hret
  obtain ⟨s₁, h1, hret⟩ := bind_inv hret
  obtain ⟨nextMarketId, hmarket, hret⟩ := bind_inv hret
  obtain ⟨config, -, hret⟩ := bind_inv hret
  obtain ⟨-, rfl⟩ := pair_inv hret
  obtain ⟨u, reserved, rfl⟩ : BalancesOnly { s with nextTokenIndex := next } s₁ :=
    foldlM_rel (R := BalancesOnly) h1 .refl (fun _ _ _ => .trans)
      fun _ _ _ _ hc => creditBalance_only hc
  refine ⟨hcoherent, fun m id => ?_, fun m hm => ?_, ?_⟩
  · unfold getOrder
    dsimp only
    rw [FinMap.get_insert]
    split
    · simp
    · exact h.record m id
  · dsimp only at hm
    rw [FinMap.get_insert] at hm
    split at hm
    · rename_i hk
      exact hk ▸ h.market
    · exact h.venue m hm
  · -- the next market id is the successor, which fits
    unfold u8 at hmarket
    split at hmarket
    · rename_i hlt
      rw [← Except.ok.inj hmarket, UInt8.le_iff_toNat_le, UInt8.toNat_ofNat',
        Nat.mod_eq_of_lt hlt]
      exact (UInt8.le_iff_toNat_le.mp h.market).trans (Nat.le_succ _)
    · cases hmarket

/-- **Restored books.** They have the recorded orders, and so the same tags. -/
theorem Tidy.restored (h : s.Tidy) (hf : s.Housed) {orderbooks : FinMap SpotMarketId OrderBook}
    (unifiedState : UnifiedState)
    (hdomain : ∀ m : SpotMarketId, (orderbooks[m]?).isSome = (s.orderbooks[m]?).isSome)
    (hbooks : ∀ (m : SpotMarketId) (b : OrderBook), orderbooks[m]? = some b →
      b.Holds (s.recorded m)) :
    Tidy { s with orderbooks, unifiedState } ∧
      SpotEngineState.bookTag { s with orderbooks, unifiedState } = s.bookTag := by
  have hmem : ∀ m o, o ∈ s.recorded m ↔ s.getOrder m o.id = some o := by
    intro m o
    have hgetD : ∀ id : OrderId, ((s.orders[m]?).getD ∅)[id]? = s.getOrder m id := by
      intro id
      unfold getOrder
      cases s.orders[m]? <;> simp
    unfold recorded
    rw [List.mem_map]
    constructor
    · rintro ⟨⟨id, o'⟩, hp, rfl⟩
      have ho := (hgetD id).symm.trans (FinMap.mem_toList.mp hp)
      rw [(hf.filed.record m id o' ho).2.1]
      exact ho
    · exact fun ho => ⟨(o.id, o), FinMap.mem_toList.mpr ((hgetD o.id).trans ho), rfl⟩
  have hget : ∀ (m : SpotMarketId) (b : OrderBook), orderbooks[m]? = some b →
      b.WF ∧ ∀ id, b.get id = s.getOrder m id := by
    intro m b hb
    obtain ⟨hwf, hiff⟩ := (hbooks m b hb).wf fun o ho => h.sides m o.id o ((hmem m o).mp ho)
    refine ⟨hwf, fun id => Option.ext fun o => ?_⟩
    rw [hiff, hmem]
    constructor
    · rintro ⟨ho, rfl⟩
      exact ho
    · intro ho
      have hid := (hf.filed.record m id o ho).2.1
      exact ⟨hid ▸ ho, hid⟩
  have hbook : ∀ m id, SpotEngineState.bookGet { s with orderbooks, unifiedState } m id =
      s.getOrder m id := by
    intro m id
    unfold bookGet
    dsimp only
    cases hb : orderbooks[m]? with
    | some b => exact (hget m b hb).2 id
    | none =>
      have hnone := hdomain m
      rw [hb, h.coherent.booked.paired] at hnone
      unfold getOrder
      rw [Option.isNone_iff_eq_none.mp (Option.isSome_eq_false_iff.mp hnone.symm)]
      rfl
  have htag : ∀ m id, SpotEngineState.bookTag { s with orderbooks, unifiedState } m id =
      s.bookTag m id := by
    intro m id
    rw [← h.tags]
    show Option.bind (bookGet { s with orderbooks, unifiedState } m id) _ = _
    rw [hbook]
  have hc := h.coherent
  refine ⟨⟨⟨⟨hc.indexed.id_eq, hc.indexed.below, hc.indexed.nodup, hc.indexed.mem⟩,
    ⟨fun m => (hdomain m).trans (hc.booked.paired m), fun m b hb => (hget m b hb).1,
      fun m b hb id => congrArg _ ((hget m b hb).2 id)⟩,
    fun m => (hdomain m).trans (hc.listed m), hc.bounded⟩,
    fun m id => (h.tags m id).trans (htag m id).symm, h.sides,
    fun m hm => h.venue m ((hdomain m).symm.trans hm)⟩, ?_⟩
  funext m id
  exact htag m id

end SpotEngineState

end Hypercore
