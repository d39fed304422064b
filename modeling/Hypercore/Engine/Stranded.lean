import Hypercore.Engine.BookRun
import Hypercore.Engine.Matching
/-!
# Hypercore.Engine.Stranded

Matching in books that hold orders on the wrong side of their key.

An order whose price sends its key to the other side stands in its own side and no lookup
finds it, so neither a match nor a cancellation takes it off. What is still true of a book
that may hold such orders is `Standing`; inserts with new ids, removals and writes keep it.
On a standing book the matching loop ends as `Auction.sweep` says, with the stranded orders
as the entries that stay (`matchAgainst_sweep`).
-/

namespace Hypercore

open Exec Int128

namespace OrderBook

/-- Every order stands in its side under its key, no id stands twice, and the index leads
to the orders that are on the side of their key. -/
structure Standing (b : OrderBook) : Prop where
  entry : ∀ (s : OrderSide) (k : OrderKey) (o : Order), (b.side s)[k]? = some o →
    o.side = s ∧ k = o.rawKey ∧ (k.side = s → b.orderIndex[o.id]? = some k)
  ids : ∀ (s s' : OrderSide) (k k' : OrderKey) (o o' : Order), (b.side s)[k]? = some o →
    (b.side s')[k']? = some o' → o.id = o'.id → s = s' ∧ k = k'
  index : ∀ (id : OrderId) (k : OrderKey), b.orderIndex[id]? = some k → k.orderId = id

section Standing

variable {b b' : OrderBook} {o : Order} {id : OrderId} {s : OrderSide} {k : OrderKey}

theorem new_standing : new.Standing where
  entry s k o h := by cases s <;> simp [new, side] at h
  ids s s' k k' o o' h := by cases s <;> simp [new, side] at h
  index id k h := by simp [new] at h

/-- What the index leads to is on the side of its key, and is the order of the id. -/
theorem Standing.indexed (hb : b.Standing) (hk : b.orderIndex[id]? = some k)
    (ho : (b.side k.side)[k]? = some o) : o.id = id ∧ o.OnOwnSide := by
  obtain ⟨hs, hkey, -⟩ := hb.entry _ _ _ ho
  rw [Order.onOwnSide_iff, ← hkey, hs, ← hb.index _ _ hk, hkey]
  exact ⟨rfl, rfl⟩

/-- No lookup by id leads to a stranded order. -/
theorem Standing.stranded (hb : b.Standing) (ho : (b.side s)[k]? = some o)
    (hstr : ¬ o.OnOwnSide) {k' : OrderKey} (hk' : b.orderIndex[o.id]? = some k') :
    (b.side k'.side)[k']? = none := by
  cases hfound : (b.side k'.side)[k']? with
  | none => rfl
  | some o' =>
    obtain ⟨hid, -⟩ := hb.indexed hk' hfound
    obtain ⟨hs', rfl⟩ := hb.ids _ _ _ _ _ _ ho hfound hid.symm
    obtain ⟨hs, hkey, -⟩ := hb.entry _ _ _ ho
    exact absurd (Order.onOwnSide_iff.mpr (by rw [← hkey, hs, hs'])) hstr

/-! ### Operations keep books standing -/

/-- An order is put into the book, over the one that has its id if there is one. -/
theorem Standing.put (hb : b.Standing)
    (hplace : ∀ (s : OrderSide) (k : OrderKey) (o' : Order), (b.side s)[k]? = some o' →
      o'.id = o.id → s = o.side ∧ k = o.rawKey)
    (h : b.insert o = .ok b') : b'.Standing := by
  -- an entry of the new book is the new order or was there in another place
  have hcases : ∀ (t : OrderSide) (k : OrderKey) (o₁ : Order), (b'.side t)[k]? = some o₁ →
      (t = o.side ∧ k = o.rawKey ∧ o₁ = o) ∨ ((b.side t)[k]? = some o₁ ∧ o₁.id ≠ o.id) := by
    intro t k o₁ h₁
    rw [insert_side h] at h₁
    split at h₁
    · rename_i ht
      rw [FinMap.get_insert] at h₁
      split at h₁
      · rename_i hk
        exact .inl ⟨ht.symm, hk.symm, (Option.some.inj h₁).symm⟩
      · rename_i hk
        exact .inr ⟨h₁, fun hid => hk (hplace _ _ _ h₁ hid).2.symm⟩
    · rename_i ht
      exact .inr ⟨h₁, fun hid => ht (hplace _ _ _ h₁ hid).1.symm⟩
  constructor
  · intro t k o₁ h₁
    rw [insert_index h]
    rcases hcases t k o₁ h₁ with ⟨rfl, rfl, rfl⟩ | ⟨h₁, hid⟩
    · exact ⟨rfl, rfl, fun _ => FinMap.get_insert_self ..⟩
    · obtain ⟨h1, h2, h3⟩ := hb.entry _ _ _ h₁
      refine ⟨h1, h2, fun hk => ?_⟩
      rw [FinMap.get_insert_ne _ _ hid.symm, h3 hk]
  · intro t t' k k' o₁ o₂ h₁ h₂ hid
    rcases hcases t k o₁ h₁ with ⟨rfl, rfl, rfl⟩ | ⟨h₁, hne⟩
    · rcases hcases t' k' o₂ h₂ with ⟨rfl, rfl, rfl⟩ | ⟨-, hne⟩
      · exact ⟨rfl, rfl⟩
      · exact absurd hid.symm hne
    · rcases hcases t' k' o₂ h₂ with ⟨rfl, rfl, rfl⟩ | ⟨h₂, -⟩
      · exact absurd hid hne
      · exact hb.ids _ _ _ _ _ _ h₁ h₂ hid
  · intro id k hk
    rw [insert_index h, FinMap.get_insert] at hk
    split at hk
    · rename_i hid
      obtain rfl := Option.some.inj hk
      exact hid
    · exact hb.index _ _ hk

theorem Standing.insert (hb : b.Standing)
    (hnew : ∀ (s : OrderSide) (k : OrderKey) (o' : Order), (b.side s)[k]? = some o' → o'.id ≠ o.id)
    (h : b.insert o = .ok b') : b'.Standing :=
  hb.put (fun s k o' ho' hid => absurd hid (hnew s k o' ho')) h

/-- Removing takes out entries only. -/
theorem side_remove_subset {t : OrderSide} (h : ((b.remove id).2.side t)[k]? = some o) :
    (b.side t)[k]? = some o := by
  cases hk : b.orderIndex[id]? with
  | none => rwa [remove_none hk] at h
  | some k' =>
    rw [remove_side hk] at h
    split at h
    · rw [FinMap.get_erase] at h
      split at h
      · cases h
      · exact h
    · exact h

theorem Standing.remove (hb : b.Standing) (id : OrderId) : (b.remove id).2.Standing := by
  constructor
  · intro t k o h
    have h₁ := side_remove_subset h
    obtain ⟨h1, h2, h3⟩ := hb.entry _ _ _ h₁
    refine ⟨h1, h2, fun hk => ?_⟩
    cases hix : b.orderIndex[id]? with
    | none => rw [remove_none hix, h3 hk]
    | some k' =>
      -- the order removed is another one: this one is still there
      rw [remove_index hix, FinMap.get_erase_ne _ ?_, h3 hk]
      rintro rfl
      obtain rfl := Option.some.inj (hix.symm.trans (h3 hk))
      rw [remove_side hix, if_pos hk, FinMap.get_erase_self] at h
      cases h
  · intro t t' k k' o o' h h'
    exact hb.ids _ _ _ _ _ _ (side_remove_subset h) (side_remove_subset h')
  · intro a k h
    cases hix : b.orderIndex[id]? with
    | none => exact hb.index _ _ (by rwa [remove_none hix] at h)
    | some k' =>
      rw [remove_index hix, FinMap.get_erase] at h
      split at h
      · cases h
      · exact hb.index _ _ h

/-- An entry after a write stands where one with its place stood. -/
theorem side_modify {f : Order → Exec Order} (hf : ∀ o o', f o = .ok o' → o.SamePlace o')
    (h : b.modify id f = .ok b') (t : OrderSide) (k : OrderKey) (o : Order)
    (ho : (b'.side t)[k]? = some o) : ∃ o₁ : Order, (b.side t)[k]? = some o₁ ∧ o₁.SamePlace o := by
  rcases modify_cases h with rfl | ⟨k₀, o₀, o', -, h₀, hw, rfl⟩
  · exact ⟨o, ho, rfl, rfl, rfl, rfl⟩
  rw [side_setSide] at ho
  split at ho
  · rename_i ht
    rw [FinMap.get_insert] at ho
    split at ho
    · rename_i hk
      obtain rfl := Option.some.inj ho
      exact ⟨o₀, by rw [← ht, ← hk, h₀], hf _ _ hw⟩
    · exact ⟨o, by rw [← ht, ho], rfl, rfl, rfl, rfl⟩
  · exact ⟨o, ho, rfl, rfl, rfl, rfl⟩

theorem Standing.modify (hb : b.Standing) {f : Order → Exec Order}
    (hf : ∀ o o', f o = .ok o' → o.SamePlace o') (h : b.modify id f = .ok b') : b'.Standing := by
  have hcases := side_modify hf h
  have hindex : b'.orderIndex = b.orderIndex := by
    rcases modify_cases h with rfl | ⟨k₀, o₀, o', -, -, -, rfl⟩
    · rfl
    · exact orderIndex_setSide ..
  constructor
  · intro t k o ho
    obtain ⟨o₁, h₁, hsame⟩ := hcases t k o ho
    rw [hindex, hsame.rawKey, hsame.2.1, hsame.1]
    exact hb.entry _ _ _ h₁
  · intro t t' k k' o o₂ ho ho₂ hid
    obtain ⟨o₁, h₁, hsame⟩ := hcases t k o ho
    obtain ⟨o₃, h₃, hsame'⟩ := hcases t' k' o₂ ho₂
    exact hb.ids _ _ _ _ _ _ h₁ h₃ (hsame.1.symm.trans (hid.trans hsame'.1))
  · intro a k hk
    rw [hindex] at hk
    exact hb.index _ _ hk

/-! ### The best order of a side -/

/-- Removing a stranded order leaves the sides. -/
theorem Standing.remove_stranded (hb : b.Standing) (ho : (b.side s)[k]? = some o)
    (hstr : ¬ o.OnOwnSide) (t : OrderSide) : (b.remove o.id).2.side t = b.side t := by
  cases hix : b.orderIndex[o.id]? with
  | none => rw [remove_none hix]
  | some k' =>
    rw [remove_side hix]
    split
    · rename_i ht
      have hnone := hb.stranded ho hstr hix
      refine Std.ExtTreeMap.ext_getElem? fun a => ?_
      rw [FinMap.get_erase]
      split
      · rename_i ha
        rw [← ha, ← ht, hnone]
      · rfl
    · rfl

theorem mem_of_best (h : b.best s = some o) : ∃ k : OrderKey, (b.side s)[k]? = some o := by
  obtain ⟨p, hp, rfl⟩ := Option.map_eq_some_iff.mp h
  exact ⟨p.1, FinMap.mem_toList.mp (List.mem_of_head? hp)⟩

theorem mem_getAllOrders : o ∈ b.getAllOrders ↔
    ∃ (s : OrderSide) (k : OrderKey), (b.side s)[k]? = some o := by
  have hside : ∀ s, o ∈ (b.side s).toList.map (·.2) ↔ ∃ k : OrderKey, (b.side s)[k]? = some o := by
    intro s
    rw [List.mem_map]
    constructor
    · rintro ⟨⟨k, o'⟩, hp, rfl⟩
      exact ⟨k, FinMap.mem_toList.mp hp⟩
    · rintro ⟨k, hk⟩
      exact ⟨(k, o), FinMap.mem_toList.mpr hk, rfl⟩
  show o ∈ (b.side .buy).toList.map (·.2) ++ (b.side .sell).toList.map (·.2) ↔ _
  rw [List.mem_append, hside, hside]
  constructor
  · rintro (h | h)
    · exact ⟨.buy, h⟩
    · exact ⟨.sell, h⟩
  · rintro ⟨s, h⟩
    cases s with
    | buy => exact .inl h
    | sell => exact .inr h

end Standing

/-- A standing book of orders whose ids are below a bound. -/
structure StandingBelow (n : OrderId) (b : OrderBook) : Prop where
  standing : b.Standing
  below : ∀ (s : OrderSide) (k : OrderKey) (o : Order), (b.side s)[k]? = some o → o.id < n

section StandingBelow

variable {b b' : OrderBook} {n : OrderId}

theorem StandingBelow.remove (hb : b.StandingBelow n) (id : OrderId) :
    (b.remove id).2.StandingBelow n :=
  ⟨hb.standing.remove id, fun s k o ho => hb.below s k o (side_remove_subset ho)⟩

/-- Ids that were given out stay below the next one. -/
theorem StandingBelow.mono {m : OrderId} (hb : b.StandingBelow n) (h : n ≤ m) :
    b.StandingBelow m :=
  ⟨hb.standing, fun s k o ho => (hb.below s k o ho).trans_le h⟩

/-- A partial fill of a resting order. -/
theorem StandingBelow.fill {id : OrderId} {size : Decimal} (hb : b.StandingBelow n)
    (h : b.modify id (·.fill size) = .ok b') : b'.StandingBelow n :=
  ⟨hb.standing.modify (fun _ _ hw => Order.fill_samePlace hw) h,
    AllOrders.modify hb.below (fun _ _ ho hw => (Order.fill_samePlace hw).1 ▸ ho) h⟩

end StandingBelow

end OrderBook

namespace BookLog

/-- **Step lemma.** -/
theorem step_standing {config : MarketConfig} {s s' : BookLog} {op : BookOp} (hs : s.Placed)
    (hb : s.book.Standing) (hok : Admits config s op) (h : step op s = .ok s') :
    s'.book.Standing := by
  obtain ⟨b', hb', h⟩ := bind_inv h
  obtain rfl := pure_inv h
  cases op with
  | insert o =>
    refine hb.insert (fun t k o' ho' => ?_) hb'
    obtain ⟨o₀, hmem, hsame, -⟩ := hs.entry _ _ _ ho'
    rw [hsame.1]
    exact (hok o (.head _)).1 o₀ hmem
  | remove id =>
    obtain rfl := pure_inv hb'
    exact hb.remove id
  | getMut id write => exact hb.modify (fun _ _ hw => write.samePlace hw) hb'
  | updateSize id r =>
    obtain ⟨⟨x, b₁⟩, hb₁, hb'⟩ := bind_inv hb'
    obtain rfl := pure_inv hb'
    exact hb.modify (fun _ _ hw => (Order.Write.remaining r).samePlace hw)
      (OrderBook.updateSize_modify hb₁)
  | removeIfFilled id =>
    obtain rfl := pure_inv hb'
    dsimp only
    unfold OrderBook.removeIfFilled
    split
    · split
      · exact hb.remove id
      · exact hb
    · exact hb

/-- **Runs of a book.** Every book that operations make from an empty one is standing,
whatever the prices. -/
theorem Reachable.standing {config : MarketConfig} {s : BookLog} (h : Reachable config s) :
    s.book.Standing :=
  (h.invariant (P := fun s => (s.Placed ∧ ((∀ o ∈ s.inserted, o.OnOwnSide) → s.Faithful)) ∧
      s.book.Standing)
    ⟨⟨new_placed, fun _ => new_faithful⟩, OrderBook.new_standing⟩
    fun _ _ _ hs hok hstep => ⟨step_spec hs.1.1 hs.1.2 hok hstep,
      step_standing hs.1.1 hs.2 hok hstep⟩).2

end BookLog

namespace MatchingEngine

/-- The orders that the matching loop cannot take off their side. -/
def stays (o : Order) : Bool := !decide o.OnOwnSide

/-- What is left of an order when its matching ends; `none` when it never does. -/
def leftOf (order : Order) (book : OrderBook) : Option Int :=
  Auction.sweep (rules order (noCross order.side)) stays
    (sideList book (makerSide order.side)) order.remainingSize.value

section Loop

variable {book book' : OrderBook} {s : OrderSide} {best order order' : Order}
  {noCross : Decimal → Decimal → Bool} {fuel : Nat} {fills fills' : List Fill}

theorem sideList_congr (h : book'.side s = book.side s) : sideList book' s = sideList book s := by
  unfold sideList
  rw [h]

theorem sideList_of_best_none (h : book.best s = none) : sideList book s = [] := by
  unfold OrderBook.best at h
  unfold sideList
  cases hl : (book.side s).toList with
  | nil => rfl
  | cons p l => simp [hl] at h

/-- The best order heads the list. Removing it leaves the tail, or all when it is
stranded. -/
theorem best_list (hb : book.Standing) (h : book.best s = some best) :
    ∃ l, sideList book s = best :: l ∧
      sideList (book.remove best.id).2 s = if best.OnOwnSide then l else best :: l := by
  cases hl : (book.side s).toList with
  | nil => simp [OrderBook.best, hl] at h
  | cons p l =>
    obtain ⟨k, o⟩ := p
    obtain rfl : o = best := by
      simpa [OrderBook.best, hl] using h
    have hmem : (book.side s)[k]? = some o :=
      FinMap.mem_toList.mp (hl ▸ List.mem_cons_self)
    have hlist : sideList book s = o :: l.map (·.2) := by
      unfold sideList
      rw [hl]
      rfl
    refine ⟨l.map (·.2), hlist, ?_⟩
    split
    · rename_i hown
      obtain ⟨hs, hkey, hindex⟩ := hb.entry _ _ _ hmem
      have hside : k.side = s := by rw [hkey, ← hs]; exact Order.onOwnSide_iff.mp hown
      unfold sideList
      rw [OrderBook.remove_side (hindex hside), if_pos hside, FinMap.toList_erase_head hl]
    · rename_i hstr
      rw [sideList_congr (hb.remove_stranded hmem hstr s), hlist]

theorem fillResting_standing {f : Decimal} (hb : book.Standing)
    (h : fillResting book best f = .ok book') : book'.Standing := by
  obtain ⟨r, -, h⟩ := bind_inv h
  split at h
  · obtain rfl := pure_inv h
    exact hb.remove _
  · exact hb.modify (fun _ _ hw => Order.fill_samePlace hw) h

/-- A resting order that is used up is removed. -/
theorem fillResting_all {f : Decimal} (hf : f.value = best.remainingSize.value)
    (h : fillResting book best f = .ok book') : book' = (book.remove best.id).2 := by
  obtain ⟨r, hr, h⟩ := bind_inv h
  obtain ⟨-, rfl⟩ := Decimal.sub_eq_ok.mp hr
  rw [if_pos (by simp [Decimal.isZero, hf])] at h
  exact (pure_inv h).symm

/-- **The loop is the sweep.** On any standing book a loop that ends leaves what the sweep
leaves and takes what it takes, and it only ends when the sweep does. -/
theorem matchAgainst_sweep (hb : book.Standing)
    (h : matchAgainst s noCross fuel order book fills = .ok (order', book', fills')) :
    Auction.sweep (rules order noCross) stays (sideList book s) order.remainingSize.value =
        some order'.remainingSize.value ∧
      fills' = fills ++ (Auction.takes (rules order noCross) stays (sideList book s)
        order.remainingSize.value).map fun p => mkFill order p.1 p.2 := by
  induction fuel generalizing order book fills with
  | zero => exact absurd h (by simp [matchAgainst])
  | succ fuel ih =>
    -- the loop stops, with nothing taken
    have hstop : ∀ {l : List Order}, (order, book, fills) = (order', book', fills') →
        Auction.sweep (rules order noCross) stays l order.remainingSize.value =
          some order.remainingSize.value →
        Auction.takes (rules order noCross) stays l order.remainingSize.value = [] →
        Auction.sweep (rules order noCross) stays l order.remainingSize.value =
            some order'.remainingSize.value ∧
          fills' = fills ++ (Auction.takes (rules order noCross) stays l
            order.remainingSize.value).map fun p => mkFill order p.1 p.2 := by
      intro l h hsweep htakes
      obtain ⟨rfl, rfl, rfl⟩ : order = order' ∧ book = book' ∧ fills = fills' := by simpa using h
      exact ⟨hsweep, by rw [htakes, List.map_nil, List.append_nil]⟩
    unfold matchAgainst at h
    split at h
    · rename_i hz
      refine hstop (pure_inv h) ?_ ?_
      · rw [Decimal.isZero_iff.mp hz, Auction.sweep_zero]
      · rw [Decimal.isZero_iff.mp hz, Auction.takes_zero]
    · rename_i hz
      have hz' : order.remainingSize.value ≠ 0 := by simpa [Decimal.isZero_iff] using hz
      cases hbest : book.best s with
      | none =>
        simp only [hbest] at h
        rw [sideList_of_best_none hbest]
        exact hstop (pure_inv h) rfl rfl
      | some best =>
        simp only [hbest] at h
        obtain ⟨l, hlist, hrest⟩ := best_list hb hbest
        rw [hlist]
        split at h
        · rename_i hc
          have hends : order.remainingSize.value = 0 ∨
              (rules order noCross).crosses best = false := .inr (by simpa [rules] using hc)
          exact hstop (pure_inv h) (if_pos hends) (if_pos hends)
        · rename_i hc
          have hgoes : ¬ (order.remainingSize.value = 0 ∨
              (rules order noCross).crosses best = false) := by simpa [rules, hz'] using hc
          split at h
          · -- the taker's own order
            rename_i hown
            have hown' : (rules order noCross).own best = true := by simpa [rules] using hown
            have hleft := ih (hb.remove _) h
            rw [hrest] at hleft
            by_cases hside : best.OnOwnSide
            · rw [if_pos hside] at hleft
              have hgone : ¬ stays best = true := by simpa [stays] using hside
              rw [Auction.sweep, Auction.takes, if_neg hgoes, if_neg hgoes, if_pos hown',
                if_pos hown', if_neg hgone, if_neg hgone]
              exact hleft
            · -- it stays the best order, and the loop would not have ended
              have hnone := hleft.1
              rw [if_neg hside, Auction.sweep, if_neg hgoes, if_pos hown',
                if_pos (by simpa [stays] using hside)] at hnone
              cases hnone
          · rename_i hown
            have hown' : ¬ (rules order noCross).own best = true := by simpa [rules] using hown
            obtain ⟨o₁, ho₁, h⟩ := bind_inv h
            obtain ⟨b₁, hb₁, h⟩ := bind_inv h
            obtain ⟨hfrom, hval⟩ := fill_filledFrom ho₁
            have hleft := ih (fillResting_standing hb hb₁) h
            rw [hfrom.rules, hfrom.mkFill, hval, Decimal.min_value] at hleft
            by_cases hle : order.remainingSize.value ≤ best.remainingSize.value
            · rw [if_pos hle, sub_self, Auction.sweep_zero, Auction.takes_zero] at hleft
              rw [Auction.sweep, Auction.takes, if_neg hgoes, if_neg hgoes, if_neg hown',
                if_neg hown', if_pos (by exact hle), if_pos (by exact hle)]
              exact ⟨hleft.1, by simpa using hleft.2⟩
            · rw [if_neg hle] at hleft
              have hmin : (order.remainingSize.min best.remainingSize).value =
                  best.remainingSize.value := by rw [Decimal.min_value, if_neg hle]
              obtain rfl := fillResting_all hmin hb₁
              rw [hrest] at hleft
              have hmore : ¬ order.remainingSize.value ≤ (rules order noCross).size best := hle
              by_cases hside : best.OnOwnSide
              · have hgone : ¬ stays best = true := by simpa [stays] using hside
                rw [if_pos hside] at hleft
                rw [Auction.sweep, Auction.takes, if_neg hgoes, if_neg hgoes, if_neg hown',
                  if_neg hown', if_neg hmore, if_neg hmore, if_neg hgone, if_neg hgone]
                exact ⟨hleft.1, by simpa [rules] using hleft.2⟩
              · -- it stays the best order and is matched again until nothing is left
                have hcross : (rules order noCross).crosses best = true := by
                  simpa [rules] using hc
                have hstays : stays best = true := by simpa [stays] using hside
                have hother : (rules order noCross).own best = false := by simpa [rules] using hown
                rw [if_neg hside] at hleft
                have hagain : Auction.sweep _ stays (best :: l) _ = _ :=
                  Auction.sweep_again hcross hother hstays (Int.not_le.mp hle)
                have hsize : 0 < (rules order noCross).size best := by
                  by_contra hnot
                  rw [if_neg hnot] at hagain
                  exact absurd (hagain.symm.trans hleft.1) (by simp)
                rw [if_pos hsize] at hagain
                refine ⟨?_, ?_⟩
                · rw [Auction.sweep, if_neg hgoes, if_neg hown', if_neg hmore, if_pos hstays,
                    if_pos hsize]
                  exact hagain.symm.trans hleft.1
                · rw [Auction.takes_again hcross hother hstays hsize (Int.not_le.mp hle)]
                  simpa [rules] using hleft.2

end Loop

end MatchingEngine

end Hypercore
