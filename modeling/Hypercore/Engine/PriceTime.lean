import Hypercore.Engine.Matching
import Hypercore.Lib.Run
/-!
# Hypercore.Engine.PriceTime

Matching refines the price-time auction.

**The reference.** `reference` never looks at how a book is stored: it sorts the
resting orders of the opposite side by price, then time, then id, and walks down
that list. On books of proper orders (positive prices of one scale, positive
sizes) the loop of the source always returns, takes what the reference takes, and
both sides lose the same quantity.

**Refused after the fact.** The one divergence is in the order's end. Post-only and
fill-or-kill orders are refused when matching has already lowered or removed the
resting orders; the caller gets an error and no fills. `Refused` is exactly that
case. Even then no book crosses (`Apart`).
-/

namespace Hypercore

open Exec Int128

/-! ### Proper orders and books -/

/-- A positive price at the scale of prices, and a positive size, as `i128` values. -/
structure Order.Proper (o : Order) : Prop where
  price_pos : 0 < o.price.value
  price_range : InRange o.price.value
  price_scale : o.price.decimals = Decimal.priceDecimals
  size_pos : 0 < o.remainingSize.value
  size_range : InRange o.remainingSize.value

instance (o : Order) : Decidable o.Proper :=
  decidable_of_iff (0 < o.price.value ∧ InRange o.price.value ∧
      o.price.decimals = Decimal.priceDecimals ∧ 0 < o.remainingSize.value ∧
      InRange o.remainingSize.value)
    ⟨fun ⟨h1, h2, h3, h4, h5⟩ => ⟨h1, h2, h3, h4, h5⟩,
      fun ⟨h1, h2, h3, h4, h5⟩ => ⟨h1, h2, h3, h4, h5⟩⟩

theorem Order.Proper.onOwnSide {o : Order} (h : o.Proper) : o.OnOwnSide := by
  unfold Order.OnOwnSide
  split
  · exact h.price_pos
  · exact h.price_pos.le

theorem Order.Proper.key {o : Order} (h : o.Proper) : ∃ k, o.key = .ok k := by
  unfold Order.key
  cases o.side with
  | buy =>
    have hr : InRange (-o.price.value) := by
      obtain ⟨hlo, hhi⟩ := h.price_range
      constructor <;> have := h.price_pos <;> omega
    exact ⟨_, bind_eq_ok.mpr ⟨_, i128_eq_ok.mpr ⟨hr, rfl⟩, rfl⟩⟩
  | sell => exact ⟨_, rfl⟩

namespace OrderBook

/-- A well-formed book of proper orders. -/
structure Proper (b : OrderBook) : Prop where
  wf : b.WF
  orders : ∀ (id : OrderId) (o : Order), b.get id = some o → o.Proper

/-- Every bid is below every ask. -/
def Apart (b : OrderBook) : Prop :=
  ∀ (i j : OrderId) (bid ask : Order), b.get i = some bid → b.get j = some ask →
    bid.side = .buy → ask.side = .sell → bid.price < ask.price

/-- The best bid is below the best ask. -/
def Uncrossed (b : OrderBook) : Prop :=
  ∀ bid ask, b.bestBid = some bid → b.bestAsk = some ask → bid.price < ask.price

theorem Apart.uncrossed {b : OrderBook} (hb : b.WF) (h : b.Apart) : b.Uncrossed := by
  intro bid ask hbid hask
  obtain ⟨hg, hs⟩ := hb.best_spec hbid
  obtain ⟨hg', hs'⟩ := hb.best_spec hask
  exact h _ _ _ _ hg hg' hs hs'

theorem new_get (id : OrderId) : new.get id = none := by simp [new, get]

theorem new_proper : new.Proper := ⟨new_wf, fun id o h => by simp [new_get] at h⟩

theorem new_apart : new.Apart := fun i _ _ _ h => by simp [new_get] at h

section Updates

variable {b b' : OrderBook} {o : Order}

theorem Proper.insert (hb : b.Proper) (ho : o.Proper) (hnew : b.get o.id = none)
    (h : b.insert o = .ok b') : b'.Proper := by
  obtain ⟨hwf, hget⟩ := hb.wf.insert hnew ho.onOwnSide h
  refine ⟨hwf, fun id o₁ h₁ => ?_⟩
  rw [hget] at h₁
  split at h₁
  · obtain rfl := Option.some.inj h₁
    exact ho
  · exact hb.orders _ _ h₁

theorem Proper.remove (hb : b.Proper) (id : OrderId) : (b.remove id).2.Proper := by
  obtain ⟨hwf, -, hget⟩ := hb.wf.remove id
  refine ⟨hwf, fun a o₁ h₁ => ?_⟩
  rw [hget] at h₁
  split at h₁
  · cases h₁
  · exact hb.orders _ _ h₁

theorem Apart.remove (hb : b.WF) (h : b.Apart) (id : OrderId) : (b.remove id).2.Apart := by
  obtain ⟨-, -, hget⟩ := hb.remove id
  intro i j bid ask hi hj
  rw [hget] at hi hj
  split at hi
  · cases hi
  · split at hj
    · cases hj
    · exact h i j bid ask hi hj

end Updates

end OrderBook

namespace MatchingEngine

/-! ### The reference -/

/-- Whether `p` is a better price than `q` for an order on this side to rest at. -/
def better : OrderSide → Decimal → Decimal → Prop
  | .buy, p, q => q < p
  | .sell, p, q => p < q

instance (s : OrderSide) (p q : Decimal) : Decidable (better s p q) := by
  cases s <;> unfold better <;> infer_instance

/-- Price, then time, then id. -/
def ahead (s : OrderSide) (o o' : Order) : Bool :=
  better s o.price o'.price ∨ o.price = o'.price ∧
    (o.timestamp < o'.timestamp ∨ o.timestamp = o'.timestamp ∧ o.id ≤ o'.id)

/-- **The price-time auction** of an order against all resting orders. -/
def reference (order : Order) (resting : List Order) : Auction.Outcome Order :=
  Auction.walk (rules order (noCross order.side))
    ((resting.filter (·.side = makerSide order.side)).mergeSort (ahead (makerSide order.side)))
    order.remainingSize.value

/-- The fills of the auction: at the price of each order taken, for what was taken. -/
def referenceFills (order : Order) (resting : List Order) : List Fill :=
  (reference order resting).taken.map fun p => mkFill order p.1 p.2

/-- What the resting orders of others have lost between two books. -/
def makersLost (order : Order) (book book' : OrderBook) : Int :=
  ((book.getAllOrders.filter fun o => o.owner ≠ order.owner).map fun o =>
    o.remainingSize.value - ((book'.get o.id).map (·.remainingSize.value)).getD 0).sum

/-- The result is that of the reference, and both sides lost what was traded. -/
def Refines (order : Order) (book : OrderBook) (r : Except Error (Order × List Fill))
    (book' : OrderBook) : Prop :=
  ∃ updated fills, r = .ok (updated, fills) ∧
    fills = referenceFills order book.getAllOrders ∧
    order.remainingSize.value - updated.remainingSize.value =
      (fills.map fun f => (f.size : Int)).sum ∧
    makersLost order book book' = (fills.map fun f => (f.size : Int)).sum

/-- The auction takes something but not everything, and the order's type then refuses it. -/
def Refused (order : Order) (book : OrderBook) : Prop :=
  (reference order book.getAllOrders).taken ≠ [] ∧
    (reference order book.getAllOrders).unfilled ≠ 0 ∧ (order.postOnly ∨ order.isFok)

instance (order : Order) (book : OrderBook) : Decidable (Refused order book) :=
  inferInstanceAs (Decidable (_ ∧ _))

/-! ### The stored side is the sorted side -/

section Sorted

variable {book : OrderBook} {s : OrderSide} {o o' : Order}

theorem mem_sideList (hb : book.WF) :
    o ∈ sideList book s ↔ book.get o.id = some o ∧ o.side = s := by
  unfold sideList
  rw [List.mem_map]
  constructor
  · rintro ⟨⟨k, o₁⟩, hp, rfl⟩
    obtain ⟨h1, h2, -⟩ := hb.mem_side_iff.mp (FinMap.mem_toList.mp hp)
    exact ⟨h1, h2⟩
  · rintro ⟨h1, h2⟩
    exact ⟨(o.rawKey, o), FinMap.mem_toList.mpr (hb.mem_side_iff.mpr ⟨h1, h2, rfl⟩), rfl⟩

theorem nodup_sideList (hb : book.WF) : (sideList book s).Nodup :=
  FinMap.nodup_values (g := Order.rawKey) fun k o h => ((hb.side_spec s k o h).2.1).symm

/-- Keys compare as priority does, on proper orders of one side. -/
theorem ahead_of_key_lt (ho : o.Proper) (ho' : o'.Proper) (hs : o.side = s) (hs' : o'.side = s)
    (h : compare o.rawKey o'.rawKey = .lt) : ahead s o o' = true := by
  have hscale : o.price.decimals = o'.price.decimals := by rw [ho.price_scale, ho'.price_scale]
  have heq : o.price.value = o'.price.value → o.price = o'.price := by
    intro hv
    cases hp : o.price
    cases hp' : o'.price
    simp_all
  simp only [OrderKey.compare_def, Ordering.then_eq_lt, Std.compare_eq_lt,
    Std.compare_eq_iff_eq] at h
  unfold ahead
  rw [decide_eq_true_eq]
  cases s with
  | buy =>
    simp only [Order.rawKey, hs, hs'] at h
    simp only [better, Decimal.lt_iff_of_decimals hscale.symm]
    rcases h with h | ⟨h, h'⟩
    · exact .inl (by omega)
    · exact .inr ⟨heq (by omega), h'.imp id fun ht => ⟨ht.1, ht.2.le⟩⟩
  | sell =>
    simp only [Order.rawKey, hs, hs'] at h
    simp only [better, Decimal.lt_iff_of_decimals hscale]
    rcases h with h | ⟨h, h'⟩
    · exact .inl (by omega)
    · exact .inr ⟨heq (by omega), h'.imp id fun ht => ⟨ht.1, ht.2.le⟩⟩

/-- The order of priority has no ties between two orders of one book. -/
theorem ahead_antisymm (ho : book.get o.id = some o) (ho' : book.get o'.id = some o')
    (h : ahead s o o' = true) (h' : ahead s o' o = true) : o = o' := by
  unfold ahead at h h'
  rw [decide_eq_true_eq] at h h'
  have hirr : ∀ p q : Decimal, better s p q → better s q p → False := by
    intro p q hpq hqp
    cases s <;> simp only [better, Decimal.lt_def] at hpq hqp <;> omega
  have hself : ∀ p : Decimal, ¬ better s p p := fun p hp => hirr p p hp hp
  rcases h with h | ⟨hp, ht⟩
  · rcases h' with h' | ⟨hp', -⟩
    · exact (hirr _ _ h h').elim
    · rw [hp'] at h
      exact (hself _ h).elim
  · rcases h' with h' | ⟨-, ht'⟩
    · rw [hp] at h'
      exact (hself _ h').elim
    · have hid : o.id = o'.id := by
        rcases ht with ht | ⟨ht, hi⟩
        · rcases ht' with ht' | ⟨ht', -⟩
          · exact absurd ht' ht.not_gt
          · exact absurd ht'.symm ht.ne
        · rcases ht' with ht' | ⟨-, hi'⟩
          · exact absurd ht.symm ht'.ne
          · exact le_antisymm hi hi'
      rw [hid, ho'] at ho
      exact (Option.some.inj ho).symm

theorem ahead_trans {a b c : Order} (h : ahead s a b = true) (h' : ahead s b c = true) :
    ahead s a c = true := by
  unfold ahead at *
  rw [decide_eq_true_eq] at *
  have htrans : ∀ p q r : Decimal, better s p q → better s q r → better s p r := by
    intro p q r hpq hqr
    cases s <;> simp only [better, Decimal.lt_def] at hpq hqr ⊢ <;> omega
  rcases h with h | ⟨hp, ht⟩
  · rcases h' with h' | ⟨hp', -⟩
    · exact .inl (htrans _ _ _ h h')
    · exact .inl (hp' ▸ h)
  · rcases h' with h' | ⟨hp', ht'⟩
    · exact .inl (hp ▸ h')
    · refine .inr ⟨hp.trans hp', ?_⟩
      rcases ht with ht | ⟨ht, hi⟩
      · rcases ht' with ht' | ⟨ht', -⟩
        · exact .inl (ht.trans ht')
        · exact .inl (ht' ▸ ht)
      · rcases ht' with ht' | ⟨ht', hi'⟩
        · exact .inl (ht ▸ ht')
        · exact .inr ⟨ht.trans ht', hi.trans hi'⟩

theorem ahead_total (o o' : Order) : (ahead s o o' || ahead s o' o) = true := by
  rw [Bool.or_eq_true]
  unfold ahead
  rw [decide_eq_true_eq, decide_eq_true_eq]
  have htri : ∀ p q : Decimal, better s p q ∨ p = q ∨ better s q p := by
    rintro ⟨v, d⟩ ⟨v', d'⟩
    cases s <;> simp only [better, Decimal.lt_def, Decimal.mk.injEq] <;> omega
  rcases htri o.price o'.price with h | h | h
  · exact .inl (.inl h)
  · rcases lt_trichotomy o.timestamp o'.timestamp with ht | ht | ht
    · exact .inl (.inr ⟨h, .inl ht⟩)
    · rcases le_total o.id o'.id with hi | hi
      · exact .inl (.inr ⟨h, .inr ⟨ht, hi⟩⟩)
      · exact .inr (.inr ⟨h.symm, .inr ⟨ht.symm, hi⟩⟩)
    · exact .inr (.inr ⟨h.symm, .inl ht⟩)
  · exact .inr (.inl h)

theorem pairwise_sideList (hb : book.Proper) :
    (sideList book s).Pairwise fun o o' => ahead s o o' = true := by
  unfold sideList
  rw [List.pairwise_map]
  refine (FinMap.pairwise_toList (book.side s)).imp_of_mem fun {p q} hp hq hlt => ?_
  obtain ⟨hg, hs, hk⟩ := hb.wf.mem_side_iff.mp (FinMap.mem_toList.mp hp)
  obtain ⟨hg', hs', hk'⟩ := hb.wf.mem_side_iff.mp (FinMap.mem_toList.mp hq)
  unfold FinMap.KeyLt at hlt
  rw [hk, hk'] at hlt
  exact ahead_of_key_lt (hb.orders _ _ hg) (hb.orders _ _ hg') hs hs' hlt

/-- **The stored side is the sorted side.** -/
theorem sideList_eq_sorted (hb : book.Proper) :
    sideList book s = (book.getAllOrders.filter (·.side = s)).mergeSort (ahead s) := by
  have hmem : ∀ o, o ∈ book.getAllOrders.filter (·.side = s) ↔
      book.get o.id = some o ∧ o.side = s := by
    intro o
    rw [List.mem_filter, hb.wf.mem_getAllOrders, decide_eq_true_eq]
  have hperm : (sideList book s).Perm (book.getAllOrders.filter (·.side = s)) := by
    rw [List.perm_ext_iff_of_nodup (nodup_sideList hb.wf) (hb.wf.nodup_getAllOrders.filter _)]
    intro o
    rw [mem_sideList hb.wf, hmem]
  have hsorted : ((book.getAllOrders.filter (·.side = s)).mergeSort (ahead s)).Pairwise
      fun o o' => ahead s o o' = true := by
    have htrans : ∀ a b c : Order, ahead s a b = true → ahead s b c = true → ahead s a c = true :=
      fun _ _ _ => ahead_trans
    exact List.pairwise_mergeSort htrans ahead_total _
  have hanti : ∀ o o', o ∈ sideList book s →
      o' ∈ (book.getAllOrders.filter (·.side = s)).mergeSort (ahead s) →
      ahead s o o' = true → ahead s o' o = true → o = o' := fun o o' ho ho' h h' =>
    ahead_antisymm ((mem_sideList hb.wf).mp ho).1 ((hmem o').mp (List.mem_mergeSort.mp ho')).1 h h'
  exact List.Perm.eq_of_pairwise hanti (pairwise_sideList hb) hsorted
    (hperm.trans (List.mergeSort_perm _ _).symm)

/-- On proper books the source's walk is the reference. -/
theorem auction_eq_reference (hb : book.Proper) (order : Order) :
    auction order book = reference order book.getAllOrders := by
  unfold auction reference
  rw [sideList_eq_sorted hb]

end Sorted

/-! ### Matching returns -/

section Returns

variable {s : OrderSide} {noCross : Decimal → Decimal → Bool} {order best : Order}
  {book : OrderBook} {f : Decimal}

/-- A fill of no more than what remains goes through. -/
theorem fill_ok (hr : InRange order.remainingSize.value) (h0 : 0 ≤ f.value)
    (hle : f.value ≤ order.remainingSize.value) : ∃ order', order.fill f = .ok order' := by
  obtain ⟨hlo, hhi⟩ := hr
  have hin : InRange (order.remainingSize.value - f.value) := by constructor <;> omega
  exact ⟨_, bind_eq_ok.mpr ⟨_, Decimal.sub_eq_ok.mpr ⟨hin, rfl⟩, rfl⟩⟩

theorem fillResting_ok (hb : book.Proper) (hg : book.get best.id = some best) (h0 : 0 ≤ f.value)
    (hle : f.value ≤ best.remainingSize.value) : ∃ book', fillResting book best f = .ok book' := by
  have hr := (hb.orders _ _ hg).size_range
  obtain ⟨o', ho'⟩ := fill_ok hr h0 hle
  obtain ⟨r, hr, -⟩ := bind_inv ho'
  unfold fillResting
  rw [hr, ok_bind]
  split
  · exact ⟨_, rfl⟩
  · unfold OrderBook.get at hg
    unfold OrderBook.modify
    cases hk : book.orderIndex[best.id]? with
    | none => simp [hk] at hg
    | some k =>
      simp only [hk] at hg
      simp only [hg, ho', ok_bind]
      exact ⟨_, rfl⟩

/-- **The loop ends.** Each turn fills the taker, or takes an order off the side. -/
theorem matchAgainst_returns {fuel : Nat} (hb : book.Proper)
    (h0 : 0 ≤ order.remainingSize.value) (hr : InRange order.remainingSize.value)
    (hfuel : order.remainingSize.value.toNat + (sideList book s).length < fuel)
    (fills : List Fill) :
    ∃ res, matchAgainst s noCross fuel order book fills = .ok res := by
  induction fuel generalizing order book fills with
  | zero => omega
  | succ fuel ih =>
    unfold matchAgainst
    split
    · exact ⟨_, rfl⟩
    · rename_i hz
      simp only [Decimal.isZero_iff] at hz
      cases hbest : book.best s with
      | none => exact ⟨_, rfl⟩
      | some best =>
        simp only []
        have hlen : (sideList book s).length = (sideList (book.remove best.id).2 s).length + 1 := by
          rw [best_cons hb.wf hbest, List.length_cons]
        obtain ⟨hg, -⟩ := hb.wf.best_spec hbest
        have hpos := (hb.orders _ _ hg).size_pos
        split
        · exact ⟨_, rfl⟩
        · split
          · exact ih (hb.remove _) h0 hr (by omega) _
          · have hmin := Decimal.min_value order.remainingSize best.remainingSize
            have hf0 : 0 ≤ (order.remainingSize.min best.remainingSize).value := by
              rw [hmin]
              split <;> omega
            have hfo : (order.remainingSize.min best.remainingSize).value ≤
                order.remainingSize.value := by
              rw [hmin]
              split <;> omega
            have hfb : (order.remainingSize.min best.remainingSize).value ≤
                best.remainingSize.value := by
              rw [hmin]
              split <;> omega
            obtain ⟨order', ho'⟩ := fill_ok hr hf0 hfo
            obtain ⟨book', hb'⟩ := fillResting_ok hb hg hf0 hfb
            obtain ⟨-, hval⟩ := fill_filledFrom ho'
            obtain ⟨-, -, hfull⟩ := fillResting_spec hb.wf hg hb'
            simp only [ho', hb', ok_bind]
            by_cases hle : order.remainingSize.value ≤ best.remainingSize.value
            · -- the taker is filled: the next turn stops
              rw [hmin, if_pos hle, sub_self] at hval
              cases fuel with
              | zero => omega
              | succ fuel =>
                unfold matchAgainst
                rw [if_pos (Decimal.isZero_iff.mpr hval)]
                exact ⟨_, rfl⟩
            · -- the resting order is used up
              rw [hmin, if_neg hle] at hval hfull
              rw [hfull rfl]
              obtain ⟨hlo, hhi⟩ := hr
              refine ih (hb.remove _) (by omega) (by constructor <;> omega) (by omega) _

end Returns

/-! ### One order -/

section Process

variable {order : Order} {book book' : OrderBook} {r : Except Error (Order × List Fill)}

theorem noCross_of_better {s : OrderSide} {p q limit : Decimal} (hpq : ¬ better (makerSide s) q p)
    (h : noCross s p limit = true) : noCross s q limit = true := by
  cases s with
  | buy =>
    simp only [noCross, askAbove, decide_eq_true_eq, makerSide, better, Decimal.lt_def] at *
    omega
  | sell =>
    simp only [noCross, bidBelow, decide_eq_true_eq, makerSide, better, Decimal.lt_def] at *
    omega

/-- Behind an order that does not cross none crosses. -/
theorem pairwise_crosses (hb : book.Proper) :
    (sideList book (makerSide order.side)).Pairwise fun a b =>
      (rules order (noCross order.side)).crosses a = false →
        (rules order (noCross order.side)).crosses b = false := by
  refine (pairwise_sideList hb).imp fun {a b} h ha => ?_
  simp only [rules, Bool.not_eq_false'] at ha ⊢
  refine noCross_of_better ?_ ha
  unfold ahead at h
  rw [decide_eq_true_eq] at h
  intro hba
  generalize makerSide order.side = s at h hba
  rcases h with h | ⟨h, -⟩
  · cases s <;> simp only [better, Decimal.lt_def] at h hba <;> omega
  · rw [h] at hba
    cases s <;> simp only [better, Decimal.lt_def] at hba <;> omega

/-- What the walk leaves of the resting orders. -/
theorem leaves_proper (hb : book.Proper) (h0 : 0 ≤ order.remainingSize.value) {id : OrderId}
    {o o' : Order} (hg : book.get id = some o)
    (hl : (auction order book).leaves (rules order (noCross order.side)) shrunk o = some o') :
    o'.Proper ∧ o'.side = o.side ∧ o'.price = o.price ∧ o'.id = o.id := by
  have ho := hb.orders _ _ hg
  rcases Auction.leaves_cases hl with rfl | ⟨f, hf, hne, rfl⟩
  · exact ⟨ho, rfl, rfl, rfl⟩
  · have hsize : ∀ a ∈ sideList book (makerSide order.side),
        0 < (rules order (noCross order.side)).size a := fun a ha =>
      (hb.orders _ _ ((mem_sideList hb.wf).mp ha).1).size_pos
    obtain ⟨hpos, hle⟩ := (Auction.walk_taken_pos hsize h0).1 _ hf
    simp only [rules] at hne hle
    obtain ⟨hlo, hhi⟩ := ho.size_range
    exact ⟨⟨ho.price_pos, ho.price_range, ho.price_scale, by simp only [shrunk]; omega,
      by constructor <;> simp only [shrunk] <;> omega⟩, rfl, rfl, rfl⟩

/-- **Processing a proper order returns.** -/
theorem processOrder_returns (hb : book.Proper) (ho : order.Proper) :
    ∃ res, processOrder order book = .ok res := by
  have hlen : ∀ s, (sideList book s).length = (book.side s).toList.length := by
    intro s
    rw [sideList, List.length_map]
  have hrest : ∀ (order₁ : Order) (book₁ : OrderBook) (fills : List Fill),
      FilledFrom order order₁ → ∃ res, handleUnfilled order₁ book₁ fills = .ok res := by
    intro order₁ book₁ fills hfrom
    obtain ⟨k, hk⟩ : ∃ k, order₁.key = .ok k := by
      have : order₁.key = order.key := by
        rw [hfrom.1]
        rfl
      rw [this]
      exact ho.key
    unfold handleUnfilled
    split_ifs
    · exact ⟨_, rfl⟩
    · exact ⟨_, rfl⟩
    · exact ⟨_, rfl⟩
    · unfold OrderBook.insert
      rw [hk]
      exact ⟨_, rfl⟩
    · exact ⟨_, rfl⟩
  unfold processOrder
  cases order.side with
  | buy =>
    obtain ⟨⟨order₁, book₁, fills⟩, hloop⟩ : ∃ res, matchAgainstAsks order book = .ok res :=
      matchAgainst_returns hb ho.size_pos.le ho.size_range (by rw [hlen]; unfold turns; omega) []
    obtain ⟨⟨x, b⟩, hun⟩ := hrest order₁ book₁ fills (matchAgainst_walk hb.wf hloop).1
    exact ⟨_, bind_eq_ok.mpr ⟨_, hloop, bind_eq_ok.mpr ⟨(x, b), hun, rfl⟩⟩⟩
  | sell =>
    obtain ⟨⟨order₁, book₁, fills⟩, hloop⟩ : ∃ res, matchAgainstBids order book = .ok res :=
      matchAgainst_returns hb ho.size_pos.le ho.size_range (by rw [hlen]; unfold turns; omega) []
    obtain ⟨⟨x, b⟩, hun⟩ := hrest order₁ book₁ fills (matchAgainst_walk hb.wf hloop).1
    exact ⟨_, bind_eq_ok.mpr ⟨_, hloop, bind_eq_ok.mpr ⟨(x, b), hun, rfl⟩⟩⟩

/-- What the book loses to the auction: the orders of other owners on the maker side lose
what was taken, and no other order changes. -/
theorem makersLost_eq (hb : book.Proper)
    (hget : ∀ o, book.get o.id = some o → book'.get o.id =
      (auction order book).leaves (rules order (noCross order.side)) shrunk o) :
    makersLost order book book' = order.remainingSize.value - (auction order book).unfilled := by
  have hterm : ∀ s, ∀ o ∈ (sideList book s).filter (fun o => decide (o.owner ≠ order.owner)),
      o.remainingSize.value - ((book'.get o.id).map (·.remainingSize.value)).getD 0 =
        (rules order (noCross order.side)).size o -
          (auction order book).remains (rules order (noCross order.side)) shrunk o := by
    intro s o ho
    rw [hget o ((mem_sideList hb.wf).mp (List.mem_of_mem_filter ho)).1]
    rfl
  have hother : ∀ s, s ≠ makerSide order.side →
      (((sideList book s).filter fun o => o.owner ≠ order.owner).map fun o =>
        o.remainingSize.value - ((book'.get o.id).map (·.remainingSize.value)).getD 0).sum = 0 := by
    intro s hs
    rw [List.map_congr_left (hterm s)]
    refine List.sum_eq_zero fun x hx => ?_
    obtain ⟨o, ho, rfl⟩ := List.mem_map.mp hx
    obtain ⟨-, hside⟩ := (mem_sideList hb.wf).mp (List.mem_of_mem_filter ho)
    have hmem : o ∉ sideList book (makerSide order.side) := fun h =>
      hs (hside.symm.trans ((mem_sideList hb.wf).mp h).2)
    have hleft :
        (auction order book).leaves (rules order (noCross order.side)) shrunk o = some o := by
      have hdrop : o ∉ (auction order book).dropped := fun h => hmem (Auction.walk_mem.2 o h)
      have htake : (auction order book).taken.find? (·.1 = o) = none := by
        rw [List.find?_eq_none]
        rintro ⟨a, f⟩ hp ha
        rw [decide_eq_true_eq] at ha
        subst ha
        exact hmem (Auction.walk_mem.1 _ hp)
      simp only [Auction.Outcome.leaves, hdrop, htake, if_false]
    simp [Auction.Outcome.remains, hleft]
  have hmaker : (((sideList book (makerSide order.side)).filter fun o =>
      o.owner ≠ order.owner).map fun o =>
        o.remainingSize.value - ((book'.get o.id).map (·.remainingSize.value)).getD 0).sum =
      order.remainingSize.value - (auction order book).unfilled := by
    rw [List.map_congr_left (hterm _)]
    have hown : (fun o : Order => decide (o.owner ≠ order.owner)) =
        fun o => !(rules order (noCross order.side)).own o := by
      funext o
      simp [rules]
    rw [hown]
    exact Auction.walk_lost (fun _ _ => rfl) (nodup_sideList hb.wf)
  have hall : book.getAllOrders = sideList book .buy ++ sideList book .sell := rfl
  unfold makersLost
  rw [hall, List.filter_append, List.map_append, List.sum_append]
  cases hs : order.side with
  | buy =>
    rw [hs] at hother hmaker
    rw [hother .buy (by decide), zero_add]
    exact hmaker
  | sell =>
    rw [hs] at hother hmaker
    rw [hother .sell (by decide), add_zero]
    exact hmaker

/-- The order's end is an error exactly when its type refuses what matching did. -/
theorem handleUnfilled_ok_iff {order : Order} {book book' : OrderBook} {fills : List Fill}
    {r : Except Error Order} (h : handleUnfilled order book fills = .ok (r, book')) :
    (∃ o, r = .ok o) ↔
      ¬ (fills ≠ [] ∧ order.remainingSize.value ≠ 0 ∧ (order.postOnly ∨ order.isFok)) := by
  unfold handleUnfilled at h
  split at h
  · rename_i hz
    obtain ⟨rfl, -⟩ := pair_inv h
    rw [Decimal.isZero_iff] at hz
    simp [hz]
  · rename_i hz
    simp only [Decimal.isZero_iff] at hz
    split at h
    · rename_i hp
      obtain ⟨rfl, -⟩ := pair_inv h
      simp [hz, hp.1, hp.2]
    · rename_i hp
      split at h
      · rename_i hf
        obtain ⟨rfl, -⟩ := pair_inv h
        simp [hz, hf.1, hf.2]
      · rename_i hf
        have hnot : ¬ (fills ≠ [] ∧ order.remainingSize.value ≠ 0 ∧
            (order.postOnly ∨ order.isFok)) := by
          rintro ⟨hne, -, ha | ha⟩
          · exact hp ⟨ha, hne⟩
          · exact hf ⟨ha, hne⟩
        refine iff_of_true ?_ hnot
        split at h
        · obtain ⟨b, -, h⟩ := bind_inv h
          exact ⟨_, (pair_inv h).1.symm⟩
        · exact ⟨_, (pair_inv h).1.symm⟩

/-- What an order that was not refused leaves: its remaining size is what the auction left
unfilled, and the resting orders are as the auction leaves them. -/
theorem processOrder_ok {updated : Order} {fills : List Fill} (hb : book.Proper)
    (ho : order.Proper) (hnew : book.get order.id = none)
    (h : processOrder order book = .ok (.ok (updated, fills), book')) :
    fills = referenceFills order book.getAllOrders ∧
      updated.remainingSize.value = (auction order book).unfilled ∧
      ∀ o, book.get o.id = some o → book'.get o.id =
        (auction order book).leaves (rules order (noCross order.side)) shrunk o := by
  obtain ⟨order₁, book₁, r₁, hfrom, hval, hwf, hget, hun, hr⟩ := processOrder_spec hb.wf h
  obtain ⟨o₁, rfl, hout⟩ : ∃ o₁, r₁ = .ok o₁ ∧ (updated, fills) =
      (o₁, (auction order book).taken.map fun p => mkFill order p.1 p.2) := by
    cases r₁ with
    | error e => cases hr
    | ok o₁ => exact ⟨o₁, rfl, Except.ok.inj hr⟩
  obtain ⟨rfl, rfl⟩ := Prod.mk.inj hout
  have hfills : ((auction order book).taken.map fun p => mkFill order p.1 p.2) =
      referenceFills order book.getAllOrders := by
    rw [auction_eq_reference hb]
    rfl
  have hkeep : ∀ o, book.get o.id = some o → book₁.get o.id =
      (auction order book).leaves (rules order (noCross order.side)) shrunk o := by
    intro o hg
    rw [hget, hg, Option.bind_some]
  rcases handleUnfilled_cases hun with ⟨-, hr₁, rfl⟩ | ⟨-, -, -, ⟨-, hr₁⟩ | ⟨-, hr₁⟩⟩ |
    ⟨hrest, -, hr₁, hins⟩ | ⟨-, -, hr₁, rfl⟩
  · obtain rfl := Except.ok.inj hr₁
    exact ⟨hfills, hval, hkeep⟩
  · cases hr₁
  · cases hr₁
  · obtain rfl := Except.ok.inj hr₁
    have hid : updated.id = order.id := by rw [hfrom.1]
    have hown : updated.OnOwnSide := by
      have := ho.onOwnSide
      rw [hfrom.1]
      exact this
    have hnone : book₁.get updated.id = none := by rw [hget, hid, hnew, Option.bind_none]
    obtain ⟨-, hget'⟩ := hwf.insert hnone hown hins
    refine ⟨hfills, hval, fun o hg => ?_⟩
    have hne : updated.id ≠ o.id := by
      intro he
      rw [← he, hid, hnew] at hg
      cases hg
    rw [hget', if_neg hne, hkeep o hg]
  · obtain rfl := Except.ok.inj hr₁
    exact ⟨hfills, hval, hkeep⟩

/-- The sizes of the fills add up to what the auction took. -/
theorem sum_referenceFills (hb : book.Proper) (h0 : 0 ≤ order.remainingSize.value) :
    ((referenceFills order book.getAllOrders).map fun f => (f.size : Int)).sum =
      order.remainingSize.value - (auction order book).unfilled := by
  have hsize : ∀ a ∈ sideList book (makerSide order.side),
      0 < (rules order (noCross order.side)).size a := fun a ha =>
    (hb.orders _ _ ((mem_sideList hb.wf).mp ha).1).size_pos
  have hterm : ∀ p ∈ (auction order book).taken,
      ((mkFill order p.1 p.2).size : Int) = p.2 := by
    intro p hp
    obtain ⟨hpos, hle⟩ := (Auction.walk_taken_pos hsize h0).1 p hp
    have hg := (auction_mem hb.wf).1 p hp
    obtain ⟨hlo, hhi⟩ := (hb.orders _ _ hg).size_range
    simp only [rules] at hle
    exact toU128_of_nonneg hpos.le (by constructor <;> omega)
  have hsum : ((auction order book).taken.map (·.2)).sum + (auction order book).unfilled =
      order.remainingSize.value := Auction.walk_sum
  unfold referenceFills
  rw [← auction_eq_reference hb, List.map_map]
  have hmap : (auction order book).taken.map ((fun f : Fill => (f.size : Int)) ∘
      fun p => mkFill order p.1 p.2) = (auction order book).taken.map (·.2) :=
    List.map_congr_left hterm
  rw [hmap]
  omega

/-- **One order.** Its processing is the reference's unless its type refuses it after
matching. -/
theorem processOrder_refines (hb : book.Proper) (ho : order.Proper)
    (hnew : book.get order.id = none) (h : processOrder order book = .ok (r, book')) :
    Refines order book r book' ↔ ¬ Refused order book := by
  have hok : (∃ x, r = .ok x) ↔ ¬ Refused order book := by
    obtain ⟨order₁, book₁, r₁, hfrom, hval, -, -, hun, rfl⟩ := processOrder_spec hb.wf h
    have hr : (∃ x, r₁.map (fun o => (o, (auction order book).taken.map
        fun p => mkFill order p.1 p.2)) = .ok x) ↔ ∃ o, r₁ = .ok o := by
      cases r₁ <;> simp [Except.map]
    rw [hr, handleUnfilled_ok_iff hun]
    have hpost : order₁.postOnly = order.postOnly := by rw [hfrom.1]
    have hfok : order₁.isFok = order.isFok := by
      rw [hfrom.1]
      rfl
    unfold Refused
    rw [← auction_eq_reference hb, hval, hpost, hfok, ne_eq, List.map_eq_nil_iff]
  constructor
  · rintro ⟨updated, fills, rfl, -⟩
    exact hok.mp ⟨_, rfl⟩
  · intro hnot
    obtain ⟨⟨updated, fills⟩, rfl⟩ := hok.mpr hnot
    obtain ⟨hfills, hval, hkeep⟩ := processOrder_ok hb ho hnew h
    have hsum := sum_referenceFills hb ho.size_pos.le
    refine ⟨updated, fills, rfl, hfills, ?_, ?_⟩
    · rw [hfills, hsum, hval]
    · rw [hfills, hsum, makersLost_eq hb hkeep]

/-- **Step lemma.** Processing keeps books proper, and keeps bids below asks. -/
theorem processOrder_keeps (hb : book.Proper) (ho : order.Proper)
    (hnew : book.get order.id = none) (h : processOrder order book = .ok (r, book')) :
    book'.Proper ∧ (book.Apart → book'.Apart) := by
  obtain ⟨order₁, book₁, r₁, hfrom, hval, hwf, hget, hun, -⟩ := processOrder_spec hb.wf h
  have hold : ∀ id o', book₁.get id = some o' → ∃ o, book.get id = some o ∧
      (auction order book).leaves (rules order (noCross order.side)) shrunk o = some o' := by
    intro id o' h'
    rw [hget] at h'
    exact Option.bind_eq_some_iff.mp h'
  have hproper : book₁.Proper := by
    refine ⟨hwf, fun id o' h' => ?_⟩
    obtain ⟨o, hg, hl⟩ := hold _ _ h'
    exact (leaves_proper hb ho.size_pos.le hg hl).1
  have hapart : book.Apart → book₁.Apart := by
    intro hap i j bid ask hi hj hbid hask
    obtain ⟨bid₀, hg, hl⟩ := hold _ _ hi
    obtain ⟨ask₀, hg', hl'⟩ := hold _ _ hj
    obtain ⟨-, hs, hp, -⟩ := leaves_proper hb ho.size_pos.le hg hl
    obtain ⟨-, hs', hp', -⟩ := leaves_proper hb ho.size_pos.le hg' hl'
    rw [hp, hp']
    exact hap i j bid₀ ask₀ hg hg' (hs ▸ hbid) (hs' ▸ hask)
  rcases handleUnfilled_cases hun with ⟨-, -, rfl⟩ | ⟨-, -, rfl, -⟩ | ⟨hrest, -, -, hins⟩ |
    ⟨-, -, -, rfl⟩
  · exact ⟨hproper, hapart⟩
  · exact ⟨hproper, hapart⟩
  · -- the remainder rests: nothing is left on the other side that it crosses
    have hleft : (auction order book).unfilled ≠ 0 := by
      rw [← hval]
      simpa [Order.isFilled] using hrest
    have hid : order₁.id = order.id := by rw [hfrom.1]
    have hprice : order₁.price = order.price := by rw [hfrom.1]
    have hside : order₁.side = order.side := by rw [hfrom.1]
    have hnone : book₁.get order₁.id = none := by rw [hget, hid, hnew, Option.bind_none]
    have hpos : 0 ≤ (auction order book).unfilled ∧
        (auction order book).unfilled ≤ order.remainingSize.value := by
      have hsize : ∀ a ∈ sideList book (makerSide order.side),
          0 < (rules order (noCross order.side)).size a := fun a ha =>
        (hb.orders _ _ ((mem_sideList hb.wf).mp ha).1).size_pos
      obtain ⟨htaken, h0⟩ := Auction.walk_taken_pos hsize ho.size_pos.le
      have hsum : ((auction order book).taken.map (·.2)).sum + (auction order book).unfilled =
        order.remainingSize.value := Auction.walk_sum
      have htotal : 0 ≤ ((auction order book).taken.map (·.2)).sum := by
        refine List.sum_nonneg fun x hx => ?_
        obtain ⟨p, hp, rfl⟩ := List.mem_map.mp hx
        exact (htaken p hp).1.le
      exact ⟨h0, by omega⟩
    have ho₁ : order₁.Proper := by
      obtain ⟨hlo, hhi⟩ := ho.size_range
      refine ⟨by rw [hprice]; exact ho.price_pos, by rw [hprice]; exact ho.price_range,
        by rw [hprice]; exact ho.price_scale, by rw [hval]; omega, ?_⟩
      rw [hval]
      constructor <;> omega
    have haway : ∀ id o', book₁.get id = some o' → o'.side = makerSide order.side →
        noCross order.side o'.price order.price = true := by
      intro id o' h' hs'
      obtain ⟨o, hg, hl⟩ := hold _ _ h'
      obtain ⟨-, hs, hp, -⟩ := leaves_proper hb ho.size_pos.le hg hl
      have hmem : o ∈ sideList book (makerSide order.side) :=
        (mem_sideList hb.wf).mpr ⟨hb.wf.get_id hg ▸ hg, hs.symm.trans hs'⟩
      have := Auction.walk_left_not_crossing (nodup_sideList hb.wf) (pairwise_crosses hb) hleft o
        hmem (by rw [show Auction.walk _ _ _ = auction order book from rfl, hl]; simp)
      simpa [rules, hp] using this
    obtain ⟨-, hget'⟩ := hwf.insert hnone ho₁.onOwnSide hins
    refine ⟨hproper.insert ho₁ hnone hins, ?_⟩
    intro hap i j bid ask hi hj hbid hask
    rw [hget'] at hi hj
    split at hi
    · obtain rfl := Option.some.inj hi
      split at hj
      · obtain rfl := Option.some.inj hj
        rw [hbid] at hask
        cases hask
      · have := haway _ _ hj (by rw [← hside, hbid]; exact hask)
        rw [← hside, hbid] at this
        rw [hprice]
        exact of_decide_eq_true this
    · split at hj
      · obtain rfl := Option.some.inj hj
        have := haway _ _ hi (by rw [← hside, hask]; exact hbid)
        rw [← hside, hask] at this
        rw [hprice]
        exact of_decide_eq_true this
      · exact hapart hap i j bid ask hi hj hbid hask
  · exact ⟨hproper, hapart⟩

end Process

/-! ### Runs -/

/-- What happens to a book: orders placed directly, orders processed, orders cancelled. -/
inductive BookEvent
  | insert (order : Order)
  | process (order : Order)
  | cancel (orderId : OrderId)

def BookEvent.run : BookEvent → OrderBook → Exec OrderBook
  | .insert order, book => book.insert order
  | .process order, book => do
    let (_, book) ← processOrder order book
    return book
  | .cancel orderId, book => return (book.remove orderId).2

/-- The order that the event brings. -/
def BookEvent.order : BookEvent → Option Order
  | .insert order | .process order => some order
  | .cancel _ => none

/-- Orders are proper, and their ids are not in use. -/
def Fits (book : OrderBook) (event : BookEvent) : Prop :=
  ∀ order ∈ event.order, order.Proper ∧ book.get order.id = none

/-- Orders reach the book through matching only. -/
def Trades (book : OrderBook) (event : BookEvent) : Prop :=
  Fits book event ∧ ∀ order, event ≠ .insert order

instance (book : OrderBook) (event : BookEvent) : Decidable (Fits book event) :=
  inferInstanceAs (Decidable (∀ order ∈ event.order, _ ∧ _))

instance (book : OrderBook) (event : BookEvent) : Decidable (Trades book event) :=
  have : Decidable (∀ order, event ≠ .insert order) :=
    match event with
    | .insert order => .isFalse fun h => h order rfl
    | .process _ | .cancel _ => .isTrue fun _ h => nomatch h
  inferInstanceAs (Decidable (_ ∧ _))

/-- Books that proper orders were placed on in any way. -/
abbrev Built (book : OrderBook) : Prop := Run.Reaches BookEvent.run Fits .new book

/-- Books that any sequence of proper orders leads to by matching. -/
abbrev Traded (book : OrderBook) : Prop := Run.Reaches BookEvent.run Trades .new book

theorem BookEvent.keeps_proper {book book' : OrderBook} {event : BookEvent} (hb : book.Proper)
    (hfit : Fits book event) (h : event.run book = .ok book') : book'.Proper := by
  cases event with
  | insert order =>
    obtain ⟨ho, hnew⟩ := hfit order rfl
    exact hb.insert ho hnew h
  | process order =>
    obtain ⟨ho, hnew⟩ := hfit order rfl
    obtain ⟨⟨r, b⟩, hp, h⟩ := bind_inv h
    obtain rfl := pure_inv h
    exact (processOrder_keeps hb ho hnew hp).1
  | cancel id =>
    obtain rfl := pure_inv h
    exact hb.remove id

theorem Built.proper {book : OrderBook} (h : Built book) : book.Proper :=
  h.invariant OrderBook.new_proper fun _ _ _ hb hfit hrun => BookEvent.keeps_proper hb hfit hrun

theorem Traded.apart {book : OrderBook} (h : Traded book) : book.Proper ∧ book.Apart := by
  refine h.invariant (P := fun b => b.Proper ∧ b.Apart)
    ⟨OrderBook.new_proper, OrderBook.new_apart⟩ ?_
  rintro b event b' ⟨hb, hap⟩ ⟨hfit, htrade⟩ hrun
  refine ⟨BookEvent.keeps_proper hb hfit hrun, ?_⟩
  cases event with
  | insert order => exact absurd rfl (htrade order)
  | process order =>
    obtain ⟨ho, hnew⟩ := hfit order rfl
    obtain ⟨⟨r, b₁⟩, hp, hrun⟩ := bind_inv hrun
    obtain rfl := pure_inv hrun
    exact (processOrder_keeps hb ho hnew hp).2 hap
  | cancel id =>
    obtain rfl := pure_inv hrun
    exact hap.remove hb.wf id

/-- **Matching.** On every book of proper orders every proper order is processed, as the
reference processes it if and only if its type does not refuse it afterwards; and no
sequence of orders leaves a crossed book. -/
theorem matching_refines_iff (book : OrderBook) :
    (∀ order : Order, Built book → order.Proper → book.get order.id = none →
      ∃ r book', processOrder order book = .ok (r, book') ∧
        (Refines order book r book' ↔ ¬ Refused order book)) ∧
    (Traded book → book.Uncrossed) := by
  refine ⟨fun order hbuilt ho hnew => ?_, fun h => ?_⟩
  · obtain ⟨⟨r, book'⟩, h⟩ := processOrder_returns hbuilt.proper ho
    exact ⟨r, book', h, processOrder_refines hbuilt.proper ho hnew h⟩
  · obtain ⟨hb, hap⟩ := Traded.apart h
    exact hap.uncrossed hb.wf

/-- An order of the account `owner` at 65000. -/
def orderOf (id : OrderId) (owner : AccountAddress) (side : OrderSide) (tif : TimeInForce)
    (size : Int) : Order := Order.new id owner {
  marketId := 0, side := side, price := ⟨6500000000000, 8⟩, size := ⟨size, 8⟩,
  orderType := .limit tif, reduceOnly := false, clientOrderId := none, triggerPrice := none,
  triggerDirection := none } (1000 + id)

/-- A book with one ask for 0.4. -/
def oneAsk : Exec OrderBook :=
  [BookEvent.process (orderOf 1 1 .sell .gtc 40000000)].foldlM
    (fun b event => if Trades b event then event.run b else .error .panic) .new

/-- A good-til-canceled bid for 1 takes the ask as the reference does, and the rest of it
rests uncrossed. -/
theorem matching_refines_oneAsk : ∃ book, oneAsk = .ok book ∧ book.Uncrossed ∧
    ∃ r book', processOrder (orderOf 2 2 .buy .gtc 100000000) book = .ok (r, book') ∧
      Refines (orderOf 2 2 .buy .gtc 100000000) book r book' := by
  obtain ⟨book, hbook, ht⟩ := exists_of_test (x := oneAsk)
    (p := fun b => b.get 2 = none ∧ ¬ Refused (orderOf 2 2 .buy .gtc 100000000) b)
    (by decide +kernel)
  obtain ⟨hnew, hnot⟩ := of_decide_eq_true ht
  have htraded : Traded book := .of_checked inferInstance hbook
  have hbuilt : Built book := htraded.mono fun _ _ h => h.1
  obtain ⟨r, book', h, hiff⟩ := (matching_refines_iff book).1 (orderOf 2 2 .buy .gtc 100000000)
    hbuilt (by decide) hnew
  exact ⟨book, hbook, (matching_refines_iff book).2 htraded, r, book', h, hiff.mpr hnot⟩

/-- A post-only bid for 1 is refused with the ask already taken off the book. -/
theorem post_only_takes_and_is_refused : ∃ book book', Traded book ∧
    (orderOf 2 2 .buy .alo 100000000).Proper ∧ book.get 2 = none ∧
    processOrder (orderOf 2 2 .buy .alo 100000000) book =
      .ok (.error .postOnlyWouldCross, book') ∧
    referenceFills (orderOf 2 2 .buy .alo 100000000) book.getAllOrders ≠ [] ∧
    book.get 1 = some (orderOf 1 1 .sell .gtc 40000000) ∧ book'.get 1 = none ∧
    ¬ Refines (orderOf 2 2 .buy .alo 100000000) book (.error .postOnlyWouldCross) book' := by
  obtain ⟨⟨book, r, book'⟩, hres, ht⟩ := exists_of_test
    (x := oneAsk >>= fun b => processOrder (orderOf 2 2 .buy .alo 100000000) b >>= fun p =>
      pure (b, p))
    (p := fun (b, r, b') => b.get 2 = none ∧ r = .error .postOnlyWouldCross ∧
      referenceFills (orderOf 2 2 .buy .alo 100000000) b.getAllOrders ≠ [] ∧
      b.get 1 = some (orderOf 1 1 .sell .gtc 40000000) ∧ b'.get 1 = none) (by decide +kernel)
  obtain ⟨b, hb, hres⟩ := bind_inv hres
  obtain ⟨p, hp, hres⟩ := bind_inv hres
  obtain ⟨rfl, rfl⟩ := pair_inv hres
  obtain ⟨hnew, rfl, hfills, hget, hgone⟩ := of_decide_eq_true ht
  refine ⟨b, book', .of_checked inferInstance hb, by decide, hnew, hp, hfills, hget, hgone, ?_⟩
  rintro ⟨updated, fills, hr, -⟩
  cases hr

end MatchingEngine

end Hypercore
