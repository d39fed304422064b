import Hypercore.Engine.Stranded
import Hypercore.Spot.Stores
/-!
# Hypercore.Spot.TimeInForce

What the time in force of a spot order promises, and what placing it keeps of that.

The loop of the spot engine looks at price and size alone; only afterwards does the order
type decide whether the remainder rests. So nothing but resting depends on it: a post-only
order takes what it crosses, and a fill-or-kill order what there is.
-/

namespace Hypercore

open Exec Int128 OrderBook

namespace OrderBook

section StandingBelow

variable {b b' : OrderBook} {n : OrderId} {o o' : Order}

/-- The next id is new. -/
theorem StandingBelow.insert (hb : b.StandingBelow o.id) (h : b.insert o = .ok b') :
    b'.StandingBelow (o.id + 1) := by
  refine ⟨hb.standing.insert (fun s k o' ho' => (hb.below s k o' ho').ne) h, fun s k o' ho' => ?_⟩
  rw [insert_side h] at ho'
  split at ho'
  · rw [FinMap.get_insert] at ho'
    split at ho'
    · obtain rfl := Option.some.inj ho'
      exact Nat.lt_succ_self _
    · exact Nat.lt_succ_of_lt (hb.below s k o' ho')
  · exact Nat.lt_succ_of_lt (hb.below s k o' ho')

/-- An order is taken out and put back in its place. -/
theorem StandingBelow.reinsert (hb : b.StandingBelow n) {s : OrderSide} {k : OrderKey}
    (ho : (b.side s)[k]? = some o) (hsame : o.SamePlace o')
    (h : (b.remove o.id).2.insert o' = .ok b') : b'.StandingBelow n := by
  obtain ⟨hs, hk, -⟩ := hb.standing.entry _ _ _ ho
  refine ⟨(hb.standing.remove o.id).put (fun t k₁ o₁ h₁ hid => ?_) h, fun t k₁ o₁ h₁ => ?_⟩
  · obtain ⟨rfl, rfl⟩ := hb.standing.ids _ _ _ _ _ _ (side_remove_subset h₁) ho
      (hid.trans hsame.1)
    exact ⟨hs.symm.trans hsame.2.1.symm, hk.trans hsame.rawKey.symm⟩
  · rw [insert_side h] at h₁
    split at h₁
    · rw [FinMap.get_insert] at h₁
      split at h₁
      · obtain rfl := Option.some.inj h₁
        rw [hsame.1]
        exact hb.below _ _ _ ho
      · exact hb.below _ _ _ (side_remove_subset h₁)
    · exact hb.below _ _ _ (side_remove_subset h₁)

end StandingBelow

end OrderBook

namespace SpotEngineState

/-! ### The loop -/

/-- What the walk of the loop sees of a maker. No maker is the taker's own. -/
def spotRules (side : OrderSide) (limit : Decimal) : Auction.Rules Order where
  own _ := false
  crosses maker := pricesCross side limit maker.price
  size maker := maker.remainingSize.value

/-- The base sizes of fills, added up in raw units. -/
def filledSize (fills : List SpotFill) : Int := (fills.map (·.baseSize.value)).sum

/-- The same order with another remaining size. -/
def SameOrder (o o' : Order) : Prop :=
  ∃ remainingSize status, o' = { o with remainingSize, status }

section Loop

variable {m : SpotMarketId} {config : SpotMarketConfig} {x x' : Matched} {maker : Order}
  {n : OrderId} {fuel : Nat}

theorem SameOrder.refl (o : Order) : SameOrder o o := ⟨_, _, rfl⟩

theorem SameOrder.trans {o o' o'' : Order} (h : SameOrder o o') (h' : SameOrder o' o'') :
    SameOrder o o'' := by
  obtain ⟨_, _, rfl⟩ := h
  obtain ⟨r, st, rfl⟩ := h'
  exact ⟨r, st, rfl⟩

/-- What one match records, and what it leaves of the taker and in the book. -/
theorem matchOne_spec (h : matchOne m config x maker = .ok x') :
    ∃ fill left, x'.fills = x.fills ++ [fill] ∧
      fill.baseSize = x.remaining.remainingSize.min maker.remainingSize ∧
      x.remaining.remainingSize.sub fill.baseSize = .ok left ∧
      x'.remaining = { x.remaining with
        remainingSize := left
        status := if left.isZero then .filled else .partiallyFilled } ∧
      (x'.book = (x.book.remove maker.id).2 ∨
        ¬ maker.remainingSize ≤ fill.baseSize ∧ ∃ remainingSize,
          maker.remainingSize.sub fill.baseSize = .ok remainingSize ∧
          remainingSize.isZero = false ∧
          (x.book.remove maker.id).2.insert { maker with remainingSize } = .ok x'.book) := by
  obtain ⟨quoteSize, -, h⟩ := bind_inv h
  obtain ⟨makerFee, -, h⟩ := bind_inv h
  obtain ⟨takerFee, -, h⟩ := bind_inv h
  obtain ⟨left, hleft, h⟩ := bind_inv h
  dsimp only at h
  split at h
  · obtain rfl := pure_inv h
    exact ⟨_, left, rfl, rfl, hleft, rfl, .inl rfl⟩
  · rename_i hle
    obtain ⟨makerLeft, hmaker, h⟩ := bind_inv h
    split at h
    · obtain rfl := pure_inv h
      exact ⟨_, left, rfl, rfl, hleft, rfl, .inl rfl⟩
    · rename_i hzero
      obtain ⟨book, hbook, h⟩ := bind_inv h
      obtain rfl := pure_inv h
      exact ⟨_, left, rfl, rfl, hleft, rfl,
        .inr ⟨hle, makerLeft, hmaker, Bool.eq_false_iff.mpr hzero, hbook⟩⟩

/-- What a pass of the loop keeps. -/
structure Passes (n : OrderId) (x x' : Matched) : Prop where
  book : x.book.StandingBelow n → x'.book.StandingBelow n
  taker : SameOrder x.remaining x'.remaining
  decimals : x'.remaining.remainingSize.decimals = x.remaining.remainingSize.decimals
  sum : filledSize x'.fills + x'.remaining.remainingSize.value =
    filledSize x.fills + x.remaining.remainingSize.value
  fills : ∃ more, x'.fills = x.fills ++ more

theorem Passes.refl (x : Matched) : Passes n x x :=
  ⟨id, .refl _, rfl, rfl, [], (List.append_nil _).symm⟩

theorem Passes.trans {x'' : Matched} (h : Passes n x x') (h' : Passes n x' x'') :
    Passes n x x'' := by
  obtain ⟨more, hmore⟩ := h.fills
  obtain ⟨more', hmore'⟩ := h'.fills
  exact ⟨h'.book ∘ h.book, h.taker.trans h'.taker, h'.decimals.trans h.decimals,
    h'.sum.trans h.sum, more ++ more', by rw [hmore', hmore, List.append_assoc]⟩

/-- **Step.** -/
theorem matchOne_passes {s : OrderSide} (hbest : x.book.best s = some maker)
    (h : matchOne m config x maker = .ok x') : Passes n x x' := by
  obtain ⟨fill, left, hfills, -, hleft, hremaining, hbook⟩ := matchOne_spec h
  obtain ⟨-, rfl⟩ := Decimal.sub_eq_ok.mp hleft
  refine ⟨fun hb => ?_, ⟨_, _, hremaining⟩, by rw [hremaining], ?_, [fill], hfills⟩
  · rcases hbook with hbook | ⟨-, r, -, -, hbook⟩
    · rw [hbook]
      exact hb.remove _
    · obtain ⟨k, hk⟩ := mem_of_best hbest
      have hsame : maker.SamePlace { maker with remainingSize := r } := ⟨rfl, rfl, rfl, rfl⟩
      exact hb.reinsert hk hsame hbook
  · rw [hfills, hremaining]
    unfold filledSize
    rw [List.map_append, List.sum_append, List.map_singleton, List.sum_singleton]
    dsimp only
    omega

/-- **Loop.** -/
theorem matchOrder_passes (h : matchOrder m config fuel x = .ok x') : Passes n x x' :=
  matchOrder_rule (fun hx _ hbest hone => hx.trans (matchOne_passes hbest hone)) (.refl x) h

/-- What is left of an order when its matching ends; `none` when it never does. -/
def spotLeft (book : OrderBook) (side : OrderSide) (limit size : Decimal) : Option Int :=
  Auction.sweep (spotRules side limit) MatchingEngine.stays
    (MatchingEngine.sideList book (opposite side)) size.value

/-- **The loop is the sweep.** On any standing book a loop that ends leaves what the sweep
leaves, and it only ends when the sweep does. -/
theorem matchOrder_left (hb : x.book.StandingBelow n)
    (h : matchOrder m config fuel x = .ok x') :
    spotLeft x.book x.remaining.side x.remaining.price x.remaining.remainingSize =
      some x'.remaining.remainingSize.value := by
  unfold spotLeft
  induction fuel generalizing x with
  | zero => cases h
  | succ fuel ih =>
    unfold matchOrder at h
    split at h
    · rename_i hz
      obtain rfl := pure_inv h
      rw [Decimal.isZero_iff.mp hz, Auction.sweep_zero]
    · rename_i hz
      have hz' : x.remaining.remainingSize.value ≠ 0 := mt Decimal.isZero_iff.mpr hz
      cases hbest : x.book.best (opposite x.remaining.side) with
      | none =>
        simp only [hbest] at h
        obtain rfl := pure_inv h
        rw [MatchingEngine.sideList_of_best_none hbest]
        rfl
      | some maker =>
        simp only [hbest] at h
        obtain ⟨l, hlist, hrest⟩ := MatchingEngine.best_list hb.standing hbest
        rw [hlist]
        split at h
        · rename_i hcross
          obtain ⟨x₁, h1, h⟩ := bind_inv h
          have hleft := ih ((matchOne_passes hbest h1).book hb) h
          obtain ⟨fill, left, -, hfill, hsub, hremaining, hbook⟩ := matchOne_spec h1
          obtain ⟨-, rfl⟩ := Decimal.sub_eq_ok.mp hsub
          rw [hremaining] at hleft
          dsimp only at hleft
          have hvalue := Decimal.min_value x.remaining.remainingSize maker.remainingSize
          rw [← hfill] at hvalue
          rw [Auction.sweep, if_neg (by simp [spotRules, hz', hcross]),
            if_neg (by simp [spotRules])]
          by_cases hle : x.remaining.remainingSize.value ≤ maker.remainingSize.value
          · rw [if_pos hle] at hvalue
            rw [hvalue, Int.sub_self, Auction.sweep_zero] at hleft
            rw [if_pos (by exact hle), hleft]
          · rw [if_neg hle] at hvalue
            rw [if_neg (by exact hle)]
            -- the maker is used up, and goes unless it is stranded
            have hgone : x₁.book = (x.book.remove maker.id).2 := by
              rcases hbook with hbook | ⟨hnot, -⟩
              · exact hbook
              · rw [hfill, Decimal.min, if_neg hle] at hnot
                exact absurd (Decimal.le_def.mpr (.inr ⟨rfl, Nat.le_refl _⟩)) hnot
            rw [hgone, hrest, hvalue] at hleft
            by_cases hside : maker.OnOwnSide
            · rw [if_pos hside] at hleft
              rw [if_neg (by simpa [MatchingEngine.stays] using hside)]
              exact hleft
            · have hstays : MatchingEngine.stays maker = true := by
                simpa [MatchingEngine.stays] using hside
              rw [if_neg hside] at hleft
              rw [if_pos hstays, ← hleft]
              exact (Auction.sweep_again hcross rfl hstays (Int.not_le.mp hle)).symm
        · rename_i hcross
          obtain rfl := pure_inv h
          rw [Auction.sweep, if_pos (.inr (Bool.eq_false_iff.mpr hcross))]

/-- The best order of the other side crosses, and there is something to fill. -/
def Crosses (book : OrderBook) (side : OrderSide) (limit size : Decimal) : Prop :=
  size.value ≠ 0 ∧ ∃ maker, book.best (opposite side) = some maker ∧
    pricesCross side limit maker.price = true

/-- A loop records fills exactly when its first turn matches. -/
theorem matchOrder_fills (h : matchOrder m config fuel x = .ok x') :
    x'.fills = x.fills ↔ ¬ Crosses x.book x.remaining.side x.remaining.price
      x.remaining.remainingSize := by
  cases fuel with
  | zero => cases h
  | succ fuel =>
    unfold matchOrder at h
    split at h
    · rename_i hz
      obtain rfl := pure_inv h
      exact iff_of_true rfl fun hc => hc.1 (Decimal.isZero_iff.mp hz)
    · rename_i hz
      cases hbest : x.book.best (opposite x.remaining.side) with
      | none =>
        simp only [hbest] at h
        obtain rfl := pure_inv h
        refine iff_of_true rfl fun hc => ?_
        obtain ⟨maker, hmaker, -⟩ := hc.2
        rw [hbest] at hmaker
        cases hmaker
      | some maker =>
        simp only [hbest] at h
        split at h
        · rename_i hcross
          obtain ⟨x₁, h1, h⟩ := bind_inv h
          obtain ⟨fill, -, hfills, -⟩ := matchOne_spec h1
          obtain ⟨more, hmore⟩ := (matchOrder_passes (n := 0) h).fills
          refine iff_of_false (fun hsame => ?_) fun hno =>
            hno ⟨mt Decimal.isZero_iff.mpr hz, maker, hbest, hcross⟩
          rw [hmore, hfills, List.append_assoc] at hsame
          exact absurd (List.append_right_eq_self.mp hsame) (by simp)
        · rename_i hcross
          obtain rfl := pure_inv h
          refine iff_of_true rfl fun hc => ?_
          obtain ⟨maker', hmaker', hcross'⟩ := hc.2
          obtain rfl := Option.some.inj (hbest.symm.trans hmaker')
          exact hcross hcross'

end Loop

end SpotEngineState

/-! ### Books and records below the next id -/

namespace OrderMaps

/-- Every book is standing, and every id is below the next one. -/
structure Steady (n : OrderId) (s : OrderMaps) : Prop where
  books : ∀ (m : MarketId) (b : OrderBook), s.orderbooks[m]? = some b → b.StandingBelow n
  records : ∀ (m : MarketId) (os : FinMap OrderId Order), s.orders[m]? = some os →
    ∀ (id : OrderId) (o : Order), os[id]? = some o → id < n

section Steady

variable {n : OrderId} {s s' : OrderMaps} {m : MarketId}

theorem Steady.mono {n' : OrderId} (hs : s.Steady n) (h : n ≤ n') : s.Steady n' :=
  ⟨fun m b hb => (hs.books m b hb).mono h, fun m os hos id o ho =>
    (hs.records m os hos id o ho).trans_le h⟩

theorem Steady.setBook {b : OrderBook} (hs : s.Steady n) (hb : b.StandingBelow n) :
    (s.setBook m b).Steady n := by
  refine ⟨fun k c hc => ?_, hs.records⟩
  unfold OrderMaps.setBook at hc
  dsimp only at hc
  rw [FinMap.get_insert] at hc
  split at hc
  · obtain rfl := Option.some.inj hc
    exact hb
  · exact hs.books k c hc

theorem Steady.setRecords {os : FinMap OrderId Order} (hs : s.Steady n)
    (hos : ∀ (id : OrderId) (o : Order), os[id]? = some o → id < n) :
    (s.setRecords m os).Steady n := by
  refine ⟨hs.books, fun k os' hos' => ?_⟩
  unfold OrderMaps.setRecords at hos'
  dsimp only at hos'
  rw [FinMap.get_insert] at hos'
  split at hos'
  · obtain rfl := Option.some.inj hos'
    exact hos
  · exact hs.records k os' hos'

theorem Steady.putRecord (hs : s.Steady n) {o : Order} (ho : o.id < n) :
    (s.putRecord m o).Steady n := by
  unfold OrderMaps.putRecord
  cases hos : s.orders[m]? with
  | none => exact hs
  | some os =>
    refine hs.setRecords fun id o' ho' => ?_
    rw [FinMap.get_insert] at ho'
    split at ho'
    · rename_i hid
      exact hid ▸ ho
    · exact hs.records m os hos id o' ho'

theorem Steady.removeOrder (hs : s.Steady n) (m : MarketId) (id : OrderId) :
    (s.removeOrder m id).Steady n := by
  unfold OrderMaps.removeOrder
  split
  · exact hs
  · have herased : (s.eraseRecord m id).Steady n := by
      unfold OrderMaps.eraseRecord
      cases hos : s.orders[m]? with
      | none => exact hs
      | some os =>
        refine hs.setRecords fun id' o' ho' => ?_
        rw [FinMap.get_erase] at ho'
        split at ho'
        · cases ho'
        · exact hs.records m os hos id' o' ho'
    unfold OrderMaps.removeFromBook
    split
    · exact herased
    · rename_i b hb
      exact herased.setBook ((herased.books m b hb).remove id)

theorem Steady.restateRecord (hs : s.Steady n) (m : MarketId) (id : OrderId) (r : Decimal) :
    (s.restateRecord m id r).Steady n := by
  unfold OrderMaps.restateRecord
  cases hos : s.orders[m]? with
  | none => exact hs
  | some os =>
    dsimp only
    cases ho : os[id]? with
    | none => exact hs
    | some o =>
      refine hs.setRecords fun id' o' ho' => ?_
      rw [FinMap.get_insert] at ho'
      split at ho'
      · rename_i hid
        exact hid ▸ hs.records m os hos id o ho
      · exact hs.records m os hos id' o' ho'

/-- An order with the next id is added. -/
theorem Steady.addOrder {o : Order} (hs : s.Steady o.id) (h : s.addOrder o = .ok s') :
    s'.Steady (o.id + 1) := by
  have hput := (hs.mono (Nat.le_succ _)).putRecord (m := o.marketId) (o := o)
    (Nat.lt_succ_self _)
  have hbooks : (s.putRecord o.marketId o).orderbooks = s.orderbooks := by
    unfold OrderMaps.putRecord
    split <;> rfl
  unfold OrderMaps.addOrder insertInBook at h
  rw [hbooks] at h
  cases hb : s.orderbooks[o.marketId]? with
  | none =>
    simp only [hb] at h
    obtain rfl := pure_inv h
    exact hput
  | some b =>
    simp only [hb] at h
    obtain ⟨b', hb', h⟩ := bind_inv h
    obtain rfl := pure_inv h
    exact hput.setBook ((hs.books _ _ hb).insert hb')

/-- A market is added. -/
theorem Steady.addMarket (hs : s.Steady n) (m : MarketId) :
    Steady n ⟨s.orders.insert m ∅, s.orderbooks.insert m .new⟩ := by
  have hnew : OrderBook.new.StandingBelow n :=
    ⟨new_standing, fun t k o ho => by cases t <;> simp [OrderBook.new, OrderBook.side] at ho⟩
  have hnone : ∀ (id : OrderId) (o : Order), (∅ : FinMap OrderId Order)[id]? = some o → id < n :=
    fun id o ho => by simp at ho
  exact (hs.setBook hnew).setRecords (m := m) hnone

end Steady

end OrderMaps

/-! ### Resting -/

namespace OrderMaps

/-- An id is recorded or stands in a book. -/
def Rests (s : OrderMaps) (id : OrderId) : Prop :=
  (∃ (m : MarketId) (o : Order), s.getOrder m id = some o) ∨
    ∃ (m : MarketId) (b : OrderBook) (t : OrderSide) (k : OrderKey) (o : Order),
      s.orderbooks[m]? = some b ∧ (b.side t)[k]? = some o ∧ o.id = id

variable {s : OrderMaps}

theorem Steady.not_rests {n : OrderId} (hs : s.Steady n) : ¬ s.Rests n := by
  rintro (⟨m, o, ho⟩ | ⟨m, b, t, k, o, hb, ho, rfl⟩)
  · obtain ⟨os, hos, ho⟩ := Option.bind_eq_some_iff.mp ho
    exact absurd (hs.records m os hos n o ho) (Nat.lt_irrefl _)
  · exact absurd ((hs.books m b hb).below t k o ho) (Nat.lt_irrefl _)

end OrderMaps

namespace SpotEngineState

/-! ### Calls -/

section Calls

variable {s s' : SpotEngineState} {n : OrderId} {m : SpotMarketId} {a : AccountAddress}

theorem steady_foldl {ι : Type} {f : SpotEngineState → ι → SpotEngineState}
    (hf : ∀ s i, s.maps.Steady n → (f s i).maps.Steady n) : ∀ (is : List ι) {s : SpotEngineState},
      s.maps.Steady n → (is.foldl f s).maps.Steady n
  | [], _, hs => hs
  | i :: is, _, hs => steady_foldl hf is (hf _ i hs)

theorem steady_syncMakers (hs : s.maps.Steady n) (m : SpotMarketId) (x : Matched) :
    (s.syncMakers m x).maps.Steady n := by
  have hremoved := steady_foldl (f := fun s id => s.removeOrder m id) (fun s id hs => by
    rw [(maps_removeOrder s m id).1]
    exact hs.removeOrder m id) x.filledMakerIds hs
  exact steady_foldl (f := fun s (p : OrderId × Decimal) => s.updateOrderRemaining m p.1 p.2)
    (fun s p hs => by
      rw [(maps_updateOrderRemaining s m p.1 p.2).1]
      exact hs.restateRecord m p.1 p.2) x.partiallyFilledMakers hremoved

/-- Everything but the id counter is free. -/
theorem removeOrder_next (s : SpotEngineState) (m : SpotMarketId) (id : OrderId) :
    (s.removeOrder m id).nextOrderId = s.nextOrderId := by
  unfold SpotEngineState.removeOrder
  split
  · dsimp only
    split <;> split <;> rfl
  · rfl

theorem updateOrderRemaining_next (s : SpotEngineState) (m : SpotMarketId) (id : OrderId)
    (r : Decimal) : (s.updateOrderRemaining m id r).nextOrderId = s.nextOrderId := by
  unfold SpotEngineState.updateOrderRemaining
  split <;> rfl

theorem foldl_next {ι : Type} {f : SpotEngineState → ι → SpotEngineState}
    (hf : ∀ s i, (f s i).nextOrderId = s.nextOrderId) : ∀ (is : List ι) (s : SpotEngineState),
      (is.foldl f s).nextOrderId = s.nextOrderId
  | [], _ => rfl
  | i :: is, s => (foldl_next hf is (f s i)).trans (hf s i)

theorem syncMakers_next (s : SpotEngineState) (m : SpotMarketId) (x : Matched) :
    (s.syncMakers m x).nextOrderId = s.nextOrderId :=
  (foldl_next (fun s (p : OrderId × Decimal) => updateOrderRemaining_next s m p.1 p.2) _ _).trans
    (foldl_next (fun s id => removeOrder_next s m id) _ _)

theorem addOrder_next {o : Order} (h : s.addOrder o = .ok s') :
    s'.nextOrderId = s.nextOrderId := by
  obtain ⟨_, _, _, rfl⟩ := addOrder_frame h
  rfl

/-- When the fills are applied, the ids of books and records are still below the bound. -/
theorem Executed.steady {market : SpotMarket} {o : Order} {book : OrderBook} {x : Matched}
    {paid : Except Error Unit} {s₁ : SpotEngineState} (hs : s.maps.Steady n)
    (h : Executed s m market o book x paid s₁) :
    s₁.maps.Steady n ∧ s₁.nextOrderId = s.nextOrderId := by
  have hpasses := matchOrder_passes (n := n) h.loop
  have hset : (s.setOrderbook m x.book).maps.Steady n :=
    hs.setBook (hpasses.book (hs.books m book h.book_eq))
  rw [h.trades.maps, h.trades.nextOrderId, syncMakers_next]
  exact ⟨steady_syncMakers hset m x, rfl⟩

theorem executeOrder_steady {market : SpotMarket} {o : Order} {token : TokenIndex}
    {reserve : Decimal} {r : Except Error (Order × List SpotFill)} (hs : s.maps.Steady o.id)
    (hnext : s.nextOrderId = o.id + 1)
    (h : s.executeOrder m market o token reserve = .ok (r, s')) :
    s'.maps.Steady s'.nextOrderId := by
  rcases executeOrder_cases h with ⟨rfl, -⟩ | ⟨book, x, paid, s₁, hexec, hend⟩
  · rw [hnext]
    exact hs.mono (Nat.le_succ _)
  · obtain ⟨hsteady, hnext₁⟩ := hexec.steady hs
    rw [hnext] at hnext₁
    have hid : x.remaining.id = o.id := by
      obtain ⟨_, _, htaker⟩ := (matchOrder_passes (n := 0) hexec.loop).taker
      rw [htaker]
    rcases hend with ⟨rfl, -⟩ | ⟨-, -, hsettle⟩
    · rw [hnext₁]
      exact hsteady.mono (Nat.le_succ _)
    · rcases settleRemaining_cases hsettle with ⟨-, -, hadd⟩ | ⟨-, honly⟩
      · rw [addOrder_next hadd, hnext₁, ← hid]
        rw [← hid] at hsteady
        exact hsteady.addOrder (maps_addOrder hadd).1
      · rw [honly.trades.maps, honly.trades.nextOrderId, hnext₁]
        exact hsteady.mono (Nat.le_succ _)

theorem placeOrder_steady {q : OrderRequest} {time : Timestamp}
    {r : Except Error (Order × List SpotFill)} (hs : s.maps.Steady s.nextOrderId)
    (h : s.placeOrder a m q time = .ok (r, s')) : s'.maps.Steady s'.nextOrderId := by
  rcases placeOrder_cases h with ⟨rfl, -⟩ | ⟨s₁, market, token, reserve, -, -, -, h1, hexec⟩
  · exact hs
  · refine executeOrder_steady ?_ rfl hexec
    show s₁.maps.Steady s.nextOrderId
    rw [(reserveBalance_only h1).trades.maps]
    exact hs

theorem cancelOrder_steady {id : OrderId} {r : Except Error Order}
    (hs : s.maps.Steady s.nextOrderId) (h : s.cancelOrder a m id = .ok (r, s')) :
    s'.maps.Steady s'.nextOrderId := by
  rcases cancelOrder_cases h with ⟨rfl, -⟩ | ⟨o, s₁, -, -, -, honly, rfl⟩
  · exact hs
  · rw [removeOrder_next, (maps_removeOrder _ m id).1, honly.trades.maps,
      honly.trades.nextOrderId]
    exact hs.removeOrder m id

theorem cancelOrders_steady {os : List Order} {canceled : List Order}
    (hs : s.maps.Steady s.nextOrderId) (h : cancelOrders a m os s = .ok (canceled, s')) :
    s'.maps.Steady s'.nextOrderId :=
  cancelOrders_rule (P := fun s => s.maps.Steady s.nextOrderId) cancelOrder_steady hs h

theorem deployToken_steady {params : SpotTokenDeployParams} {r : Except Error SpotToken}
    (hs : s.maps.Steady s.nextOrderId) (h : s.deployToken params a = .ok (r, s')) :
    s'.maps.Steady s'.nextOrderId := by
  rcases deployToken_cases h with
    ⟨rfl, -⟩ | ⟨token, next, s₁, nextMarketId, config, -, -, -, hcredited, -, -, rfl⟩
  · exact hs
  · have hs₁ : s₁.maps.Steady s₁.nextOrderId := by
      rw [hcredited.trades.maps, hcredited.trades.nextOrderId]
      exact hs
    exact hs₁.addMarket _

end Calls

end SpotEngineState

namespace SpotCall

variable {s s' : SpotEngineState}

/-- **Step.** Every call keeps books standing and ids below the next one, whatever the prices
and the market that the order names. -/
theorem step_steady {call : SpotCall} (hs : s.Housed ∧ s.maps.Steady s.nextOrderId)
    (h : call.step s = .ok s') : s'.Housed ∧ s'.maps.Steady s'.nextOrderId := by
  cases call with
  | deployToken params deployer =>
    obtain ⟨⟨r, s₁⟩, h1, h⟩ := bind_inv h
    obtain rfl := pure_inv h
    exact ⟨hs.1.deployToken h1, SpotEngineState.deployToken_steady hs.2 h1⟩
  | share sheet =>
    obtain rfl := pure_inv h
    exact ⟨⟨hs.1.filed, hs.1.listed⟩, hs.2⟩
  | placeOrder account market request timestamp =>
    obtain ⟨⟨r, s₁⟩, h1, h⟩ := bind_inv h
    obtain rfl := pure_inv h
    exact ⟨(SpotEngineState.placeOrder_kept h1).housed hs.1,
      SpotEngineState.placeOrder_steady hs.2 h1⟩
  | cancelOrder account market orderId =>
    obtain ⟨⟨r, s₁⟩, h1, h⟩ := bind_inv h
    obtain rfl := pure_inv h
    exact ⟨(SpotEngineState.cancelOrder_kept h1).housed hs.1,
      SpotEngineState.cancelOrder_steady hs.2 h1⟩
  | cancelAllOrders account market =>
    obtain ⟨⟨r, s₁⟩, h1, h⟩ := bind_inv h
    obtain rfl := pure_inv h
    exact ⟨(SpotEngineState.cancelOrders_kept h1).housed hs.1,
      SpotEngineState.cancelOrders_steady hs.2 h1⟩

/-- A state that some calls lead to from a balance sheet. -/
def Leads (u : UnifiedState) (s : SpotEngineState) : Prop :=
  Run.Reaches step (fun _ _ => True) (.withUnifiedState u) s

/-- **Run.** -/
theorem Leads.steady {u : UnifiedState} (h : Leads u s) :
    s.Housed ∧ s.maps.Steady s.nextOrderId :=
  h.invariant (P := fun s => s.Housed ∧ s.maps.Steady s.nextOrderId)
    ⟨.withUnifiedState u, ⟨fun m b hb => by simp [SpotEngineState.maps,
      SpotEngineState.withUnifiedState] at hb, fun m os hos => by simp [SpotEngineState.maps,
      SpotEngineState.withUnifiedState] at hos⟩⟩
    fun _ _ _ hs _ hstep => step_steady hs hstep

end SpotCall

namespace SpotEngineState

/-! ### The contract -/

/-- The limit of a request reaches the best order of the other side. -/
def Reaches (s : SpotEngineState) (m : SpotMarketId) (q : OrderRequest) : Prop :=
  ∃ book : OrderBook, s.orderbooks[m]? = some book ∧ Crosses book q.side q.price q.size

/-- What the limit of a request reaches is enough to fill it. -/
def Covers (s : SpotEngineState) (m : SpotMarketId) (q : OrderRequest) : Prop :=
  ∃ book : OrderBook, s.orderbooks[m]? = some book ∧ spotLeft book q.side q.price q.size = some 0

/-- **The contract** of an order that was placed without error. -/
structure InForce (s' : SpotEngineState) (m : SpotMarketId) (q : OrderRequest) (order : Order)
    (fills : List SpotFill) : Prop where
  postOnly : q.orderType = .limit .alo → fills = []
  fillOrKill : q.orderType = .limit .fok → order.isFilled = true ∨ fills = []
  leavesNothing : q.orderType = .limit .ioc ∨ q.orderType = .limit .fok ∨
    q.orderType = .market → ¬ s'.maps.Rests order.id
  leavesRemainder : q.orderType = .limit .gtc →
    if order.isFilled then ¬ s'.maps.Rests order.id else s'.maps.RestsIn m order
  remainder : order.remainingSize = ⟨q.size.value - filledSize fills, q.size.decimals⟩

section Contract

variable {s s₁ s' : SpotEngineState} {m : SpotMarketId} {market : SpotMarket} {o order : Order}
  {book : OrderBook} {x : Matched} {paid : Except Error Unit}

/-- The remainder of an order that should rest does so in its own market. -/
theorem Executed.restsIn_iff (h : Executed s m market o book x paid s₁) (hs : s.maps.Filed)
    (hadd : s₁.addOrder x.remaining = .ok s') :
    s'.maps.RestsIn m x.remaining ↔ o.marketId = m := by
  obtain ⟨_, _, htaker⟩ := (matchOrder_passes (n := 0) h.loop).taker
  have hmarket : x.remaining.marketId = o.marketId := by rw [htaker]
  have hs₁ := h.kept.filing.filed hs
  constructor
  · rintro ⟨hrecord, -⟩
    rw [← hmarket]
    exact (((addOrder_kept hadd).filing.filed hs₁).record _ _ _ hrecord).1
  · rintro rfl
    have hbook : (s₁.maps.orderbooks[x.remaining.marketId]?).isSome = true := by
      rw [h.kept.filing.books, hmarket]
      exact Option.isSome_of_eq_some h.book_eq
    have hrests := hs₁.restsIn hbook (maps_addOrder hadd).1
    rwa [hmarket] at hrests

/-- An order that is placed without error is executed with the next id. -/
structure PlacedAs (s : SpotEngineState) (m : SpotMarketId) (o : Order) (book : OrderBook)
    (x : Matched) (s₂ s' : SpotEngineState) : Prop where
  book_eq : s.orderbooks[m]? = some book
  executed : ∃ (s₁ : SpotEngineState) (market : SpotMarket), s₁.maps = s.maps ∧
    Executed s₁ m market o book x (.ok ()) s₂
  rests : (x.remaining.isFilled = false ∧ x.remaining.shouldRest = true ∧
      s₂.addOrder x.remaining = .ok s') ∨
    (x.remaining.isFilled = true ∨ x.remaining.shouldRest = false) ∧ BalancesOnly s₂ s'

variable {a : AccountAddress} {q : OrderRequest} {time : Timestamp} {fills : List SpotFill}

theorem placedAs (h : s.placeOrder a m q time = .ok (.ok (order, fills), s')) :
    ∃ book x s₂, PlacedAs s m (.new s.nextOrderId a q time) book x s₂ s' ∧
      order = x.remaining ∧ fills = x.fills := by
  rcases placeOrder_cases h with ⟨-, err, hr⟩ | ⟨s₀, market, token, reserve, -, -, -, h0, hexec⟩
  · cases hr
  have hmaps : ({ s₀ with nextOrderId := s.nextOrderId + 1 } : SpotEngineState).maps = s.maps :=
    (reserveBalance_only h0).trades.maps
  rcases executeOrder_cases hexec with ⟨-, err, hr⟩ | ⟨book, x, paid, s₂, hx, hend⟩
  · cases hr
  rcases hend with ⟨-, err, hr⟩ | ⟨rfl, hr, hsettle⟩
  · cases hr
  obtain ⟨rfl, rfl⟩ := Prod.mk.inj (Except.ok.inj hr)
  have hbook : s.orderbooks[m]? = some book := by
    have hb := hx.book_eq
    rwa [show ({ s₀ with nextOrderId := s.nextOrderId + 1 } : SpotEngineState).orderbooks =
      s.orderbooks from congrArg OrderMaps.orderbooks hmaps] at hb
  exact ⟨book, x, s₂, ⟨hbook, ⟨_, market, hmaps, hx⟩, settleRemaining_cases hsettle⟩, rfl, rfl⟩

namespace PlacedAs

variable {s₂ : SpotEngineState}

/-- Only its remaining size and its status tell what is left from the order. -/
theorem taker (h : PlacedAs s m o book x s₂ s') : ∃ remainingSize status,
    x.remaining = { o with remainingSize, status } := by
  obtain ⟨s₁, market, -, hx⟩ := h.executed
  exact (matchOrder_passes (n := 0) hx.loop).taker

/-- The order has no fills exactly when its limit reaches nothing. -/
theorem reaches {id : OrderId} (h : PlacedAs s m (.new id a q time) book x s₂ s') :
    x.fills = [] ↔ ¬ s.Reaches m q := by
  obtain ⟨s₁, market, -, hx⟩ := h.executed
  refine (matchOrder_fills hx.loop).trans (not_congr ⟨fun hc => ⟨book, h.book_eq, hc⟩, ?_⟩)
  rintro ⟨book', hbook', hc⟩
  obtain rfl := Option.some.inj (h.book_eq.symm.trans hbook')
  exact hc

/-- The order is filled exactly when what its limit reaches is enough. -/
theorem covers {id n : OrderId} (h : PlacedAs s m (.new id a q time) book x s₂ s')
    (hs : s.maps.Steady n) : x.remaining.isFilled = true ↔ s.Covers m q := by
  obtain ⟨s₁, market, -, hx⟩ := h.executed
  have hleft := matchOrder_left (hs.books m book h.book_eq) hx.loop
  unfold Order.isFilled
  rw [Decimal.isZero_iff]
  constructor
  · intro hz
    exact ⟨book, h.book_eq, by rw [← hz]; exact hleft⟩
  · rintro ⟨book', hbook', hc⟩
    obtain rfl := Option.some.inj (h.book_eq.symm.trans hbook')
    exact Option.some.inj (hleft.symm.trans hc)

/-- What is left and what was filled make the size. -/
theorem remainder (h : PlacedAs s m o book x s₂ s') : x.remaining.remainingSize =
    ⟨o.remainingSize.value - filledSize x.fills, o.remainingSize.decimals⟩ := by
  obtain ⟨s₁, market, -, hx⟩ := h.executed
  have hpasses := matchOrder_passes (n := 0) hx.loop
  have hsum := hpasses.sum
  have hdecimals := hpasses.decimals
  dsimp only at hsum hdecimals
  have hzero : filledSize [] = 0 := rfl
  rw [hzero] at hsum
  cases hr : x.remaining.remainingSize with
  | mk v d =>
    rw [hr] at hsum hdecimals
    dsimp only at hsum hdecimals
    rw [hdecimals, show o.remainingSize.value - filledSize x.fills = v by omega]

/-- When the fills are applied, everything that stands is older than the order. -/
theorem steady (h : PlacedAs s m o book x s₂ s') (hs : s.maps.Steady o.id) :
    s₂.maps.Steady o.id := by
  obtain ⟨s₁, market, hmaps, hx⟩ := h.executed
  exact (hx.steady (hmaps ▸ hs)).1

/-- A remainder that is added rests in the market exactly when the order names it. -/
theorem restsIn_iff (h : PlacedAs s m o book x s₂ s') (hs : s.maps.Filed)
    (hadd : s₂.addOrder x.remaining = .ok s') :
    s'.maps.RestsIn m x.remaining ↔ o.marketId = m := by
  obtain ⟨s₁, market, hmaps, hx⟩ := h.executed
  exact hx.restsIn_iff (hmaps ▸ hs) hadd

end PlacedAs

end Contract

end SpotEngineState

namespace SpotCall

open SpotEngineState

/-- **Time in force.** In every state that calls lead to, an order that is placed without error
keeps its contract unless it is post-only and crosses, or fill-or-kill and crosses too little,
or leaves a remainder that names another market. -/
theorem Leads.inForce_iff {u : UnifiedState} {s s' : SpotEngineState} {a : AccountAddress}
    {m : SpotMarketId} {q : OrderRequest} {time : Timestamp} {order : Order}
    {fills : List SpotFill} (hs : Leads u s)
    (h : s.placeOrder a m q time = .ok (.ok (order, fills), s')) :
    InForce s' m q order fills ↔ (q.orderType = .limit .alo → ¬ s.Reaches m q) ∧
      (q.orderType = .limit .fok → ¬ s.Reaches m q ∨ s.Covers m q) ∧
      (q.orderType = .limit .gtc → s.Covers m q ∨ q.marketId = m) := by
  obtain ⟨hhoused, hsteady⟩ := hs.steady
  obtain ⟨book, x, s₂, hp, rfl, rfl⟩ := placedAs h
  have hreaches := hp.reaches
  have hcovers := hp.covers hsteady
  obtain ⟨_, _, htaker⟩ := hp.taker
  have hrest : x.remaining.shouldRest = true ↔
      q.orderType = .limit .gtc ∨ q.orderType = .limit .alo := by
    rw [Order.shouldRest_iff, show x.remaining.orderType = q.orderType by rw [htaker]; rfl]
  have hnot : BalancesOnly s₂ s' → ¬ s'.maps.Rests x.remaining.id := by
    intro honly₂
    rw [honly₂.trades.maps, show x.remaining.id = s.nextOrderId by rw [htaker]; rfl]
    exact (hp.steady hsteady).not_rests
  rw [← hreaches, ← hcovers]
  rcases hp.rests with ⟨hopen, hshould, hadd⟩ | ⟨hkind, honly₂⟩
  · -- the remainder is added to the market that the order names
    have hadded : s'.maps.RestsIn m x.remaining ↔ q.marketId = m :=
      hp.restsIn_iff hhoused.filed hadd
    constructor
    · intro hk
      refine ⟨hk.postOnly, fun hfok => (hk.fillOrKill hfok).symm, fun hgtc => .inr ?_⟩
      have hrests := hk.leavesRemainder hgtc
      rw [if_neg (by rw [hopen]; simp)] at hrests
      exact hadded.mp hrests
    · rintro ⟨halo, hfok, hgtc⟩
      refine ⟨halo, fun h1 => (hfok h1).symm, fun h1 => ?_, fun h1 => ?_, hp.remainder⟩
      · rcases hrest.mp hshould with h2 | h2 <;> rw [h2] at h1 <;> simp at h1
      · rw [if_neg (by rw [hopen]; simp)]
        refine hadded.mpr ((hgtc h1).resolve_left ?_)
        rw [hopen]
        simp
  · constructor
    · intro hk
      refine ⟨hk.postOnly, fun hfok => (hk.fillOrKill hfok).symm, fun hgtc => .inl ?_⟩
      rcases hkind with hfilled | hno
      · exact hfilled
      · rw [hrest.mpr (.inl hgtc)] at hno
        cases hno
    · rintro ⟨halo, hfok, -⟩
      refine ⟨halo, fun h1 => (hfok h1).symm, fun _ => hnot honly₂, fun h1 => ?_, hp.remainder⟩
      rcases hkind with hfilled | hno
      · rw [if_pos hfilled]
        exact hnot honly₂
      · rw [hrest.mpr (.inl h1)] at hno
        cases hno

/-- An order of a type at a price of one. -/
def ofType (orderType : OrderType) (size : Int) : OrderRequest :=
  { atOne 128 .buy size with orderType }

/-- A balance sheet where a buyer has fifty USDC. -/
def fiftyOfEight : UnifiedState := UnifiedState.new.setBalance 8 0 (.new ⟨50000000, 6⟩)

/-- An ask for one, and a request of the buyer. -/
def askRun (q : OrderRequest) :
    Exec (SpotEngineState × Except Error (Order × List SpotFill) × SpotEngineState) := do
  let s ← [deployToken tokenOfSeven 7, placeOrder 7 128 (atOne 128 .sell 100000000) 1].foldlM
    (fun s call => step call s) (.withUnifiedState fiftyOfEight)
  return (s, ← s.placeOrder 8 128 q 3)

theorem askRun_eq_ok {q : OrderRequest} {s s' : SpotEngineState}
    {r : Except Error (Order × List SpotFill)} (h : askRun q = .ok (s, r, s')) :
    Leads fiftyOfEight s ∧ s.placeOrder 8 128 q 3 = .ok (r, s') := by
  obtain ⟨s₁, hs, h⟩ := bind_inv h
  obtain ⟨x, hx, h⟩ := bind_inv h
  obtain ⟨rfl, rfl⟩ := pair_inv h
  exact ⟨.of_foldlM (fun _ _ _ => trivial) hs, hx⟩

/-- A request for three of the one takes the one and is not filled. -/
theorem askRun_takes (orderType : OrderType)
    (h : (fun x => decide (∃ y ∈ x.2.1.toOption, y.1.isFilled = false ∧ y.2 ≠ [])) <$>
      askRun (ofType orderType 300000000) = .ok true) :
    ∃ s s' order fills, Leads fiftyOfEight s ∧
      s.placeOrder 8 128 (ofType orderType 300000000) 3 = .ok (.ok (order, fills), s') ∧
      order.isFilled = false ∧ fills ≠ [] := by
  obtain ⟨⟨s, r, s'⟩, hrun, htest⟩ := exists_of_test h
  obtain ⟨⟨order, fills⟩, hr, hopen, htook⟩ := of_decide_eq_true htest
  obtain ⟨hleads, hplace⟩ := askRun_eq_ok hrun
  cases r with
  | error x => cases hr
  | ok y =>
    obtain rfl := Option.some.inj hr
    exact ⟨s, s', order, fills, hleads, hplace, hopen, htook⟩

/-- A good-til-cancelled order keeps its contract, with a remainder that rests. -/
theorem inForce_remainder : ∃ s s' order fills, Leads fiftyOfEight s ∧
    s.placeOrder 8 128 (ofType (.limit .gtc) 300000000) 3 = .ok (.ok (order, fills), s') ∧
    order.isFilled = false ∧ fills ≠ [] ∧
    InForce s' 128 (ofType (.limit .gtc) 300000000) order fills := by
  obtain ⟨s, s', order, fills, hleads, hplace, hopen, htook⟩ :=
    askRun_takes (.limit .gtc) (by decide +kernel)
  refine ⟨s, s', order, fills, hleads, hplace, hopen, htook,
    (hleads.inForce_iff hplace).mpr ⟨fun h => ?_, fun h => ?_, fun _ => .inr rfl⟩⟩
  · simp [ofType] at h
  · simp [ofType] at h

/-- A fill-or-kill order that finds too little is filled in part, and a post-only order that
crosses is filled as the taker. -/
theorem fill_or_kill_in_part :
    (∃ s s' order fills, Leads fiftyOfEight s ∧
      s.placeOrder 8 128 (ofType (.limit .fok) 300000000) 3 = .ok (.ok (order, fills), s') ∧
      ¬ InForce s' 128 (ofType (.limit .fok) 300000000) order fills) ∧
    ∃ s s' order fills, Leads fiftyOfEight s ∧
      s.placeOrder 8 128 (ofType (.limit .alo) 300000000) 3 = .ok (.ok (order, fills), s') ∧
      ¬ InForce s' 128 (ofType (.limit .alo) 300000000) order fills := by
  constructor
  · obtain ⟨s, s', order, fills, hleads, hplace, hopen, htook⟩ :=
      askRun_takes (.limit .fok) (by decide +kernel)
    refine ⟨s, s', order, fills, hleads, hplace, fun hk => ?_⟩
    rcases hk.fillOrKill rfl with h | h
    · rw [hopen] at h
      cases h
    · exact htook h
  · obtain ⟨s, s', order, fills, hleads, hplace, -, htook⟩ :=
      askRun_takes (.limit .alo) (by decide +kernel)
    exact ⟨s, s', order, fills, hleads, hplace, fun hk => htook (hk.postOnly rfl)⟩

end SpotCall

end Hypercore
