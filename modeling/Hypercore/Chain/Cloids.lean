import Hypercore.Chain.Snapshot
import Hypercore.Lib.Index
import Hypercore.Spot.Cloids
/-!
# Hypercore.Chain.Cloids

The two maps of client order ids, and the orders they stand for.

The maps are kept outside the engines. While a batch runs they stand still and it notes what
it owes them: ids to register and orders that are gone (`Outstanding`); cancellations note
the ids they dropped (`Dropped`). Both debts are paid at the end of the transaction, if it
gets there, and cover everything that happened in the books, if nothing happened there that
the application was not told of. `OpFollows` says when; along the runs that keep to it,
the maps are inverse to each other and have exactly the resting orders with a client order id
in them.
-/

namespace Hypercore

open Exec Int128

namespace AppState

variable {s s' u : AppState} {a sender : AccountAddress} {c : ClientOrderId} {m : MarketId}
  {i : OrderId} {T T' : Tags} {L L' : List (ClientOrderId × MarketId × OrderId)}
  {F F' : List (MarketId × OrderId)}

/-! ### The two maps -/

/-- The reverse map has the given tags, and the other map finds them. -/
structure Tracks (s : AppState) (T : Tags) : Prop where
  tag : ∀ m i, s.oidToCloid[(⟨m, i⟩ : PairKey MarketId OrderId)]? = T m i
  index : Indexes id (fun k : MarketId × OrderId => T k.1 k.2)
    fun p => s.getOrderByCloid p.1 p.2

namespace Tracks

/-- The order that is found has the id, and the other way around. -/
theorem found (h : s.Tracks T) : s.getOrderByCloid a c = some (m, i) ↔ T m i = some (a, c) :=
  (h.index (a, c) (m, i)).trans
    ⟨fun ⟨v, hv, hk⟩ => (show v = (a, c) from hk) ▸ hv, fun hv => ⟨_, hv, rfl⟩⟩

theorem congr (h : s.Tracks T) (htags : T' = T) : s.Tracks T' := htags ▸ h

/-- Registering an id that is free, for an order that has none. -/
theorem registerCloid (h : s.Tracks T) (hkey : T m i = none)
    (hfree : s.getOrderByCloid a c = none) :
    (s.registerCloid a c m i).Tracks fun k j => if m = k ∧ i = j then some (a, c) else T k j where
  tag k j := by
    unfold AppState.registerCloid
    rw [FinMap.get_insert, h.tag]
    simp only [PairKey.mk.injEq]
  index := by
    refine (h.index.insert_iff (i := (m, i)) (v := (a, c)) hkey (fun j => ?_) fun p => ?_).mpr
      fun j w hw => h.index.absent hfree hw
    · simp only [Prod.ext_iff]
    · unfold getOrderByCloid AppState.registerCloid
      rw [FinMap.get_insert]
      simp only [PairKey.mk.injEq, Prod.ext_iff, id]

/-- Removing the id of an order, whether it has one or not. -/
theorem removeCloidByOrder (h : s.Tracks T) (m : MarketId) (i : OrderId) :
    (s.removeCloidByOrder m i).Tracks fun k j => if m = k ∧ i = j then none else T k j := by
  unfold AppState.removeCloidByOrder
  rw [h.tag]
  cases htag : T m i with
  | none =>
    refine h.congr ?_
    funext k j
    split
    · rename_i hk
      rw [← hk.1, ← hk.2, htag]
    · rfl
  | some p =>
    refine ⟨fun k j => ?_, ?_⟩
    · rw [FinMap.get_erase, h.tag]
      simp only [PairKey.mk.injEq]
    · refine h.index.erase (i := (m, i)) htag (fun j => ?_) fun q => ?_
      · simp only [Prod.ext_iff]
      · unfold getOrderByCloid
        rw [FinMap.get_erase]
        simp only [PairKey.mk.injEq, Prod.ext_iff, id]

/-- Removing an id, whether an order has it or not. -/
theorem removeCloid (h : s.Tracks T) (a : AccountAddress) (c : ClientOrderId) :
    (s.removeCloid a c).Tracks fun k j => if T k j = some (a, c) then none else T k j := by
  unfold AppState.removeCloid
  cases hfound : s.getOrderByCloid a c with
  | none =>
    refine h.congr ?_
    funext k j
    split
    · rename_i htag
      rw [h.found.mpr htag] at hfound
      cases hfound
    · rfl
  | some k =>
    obtain ⟨m, i⟩ := k
    have htag := h.found.mp hfound
    have hkey : ∀ k j, T k j = some (a, c) ↔ m = k ∧ i = j := by
      intro k j
      rw [← h.found, hfound]
      simp only [Option.some.injEq, Prod.mk.injEq]
    refine ⟨fun k j => ?_, ?_⟩
    · rw [FinMap.get_erase, h.tag]
      simp only [PairKey.mk.injEq, hkey]
    · refine h.index.erase (i := (m, i)) htag (fun j => ?_) fun q => ?_
      · simp only [hkey, Prod.ext_iff]
      · unfold getOrderByCloid
        rw [FinMap.get_erase]
        simp only [PairKey.mk.injEq, Prod.ext_iff, id]

/-- **Paying for cancellations.** When the ids of the dropped orders are removed, the maps
have the tags that are left. -/
theorem removeCloids (h : s.Tracks T) {cloids : List ClientOrderId}
    (hdropped : Dropped sender cloids T T') : (s.removeCloids sender cloids).Tracks T' := by
  have hfold : ∀ (cs : List ClientOrderId) {s : AppState} {T : Tags}, s.Tracks T →
      (s.removeCloids sender cs).Tracks fun k j =>
        if ∃ c ∈ cs, T k j = some (sender, c) then none else T k j := by
    intro cs
    induction cs with
    | nil => exact fun h => h.congr (by simp)
    | cons c cs ih =>
      intro s T h
      refine (ih (h.removeCloid sender c)).congr ?_
      funext k j
      by_cases hc : T k j = some (sender, c)
      · simp [hc]
      · simp [hc]
  refine (hfold cloids h).congr ?_
  funext k j
  split
  · rename_i hc
    obtain ⟨c, hc, htag⟩ := hc
    -- the dropped order with this id is this one
    obtain ⟨k', j', htag', hgone⟩ := hdropped.gone c hc
    obtain ⟨rfl, rfl⟩ := Prod.mk.inj (Option.some.inj
      ((h.found.mpr htag').symm.trans (h.found.mpr htag)))
    exact hgone
  · rename_i hc
    exact (hdropped.tag k j).resolve_right fun ⟨_, c, hin, htag⟩ => hc ⟨c, hin, htag⟩

end Tracks

/-! ### What a batch owes the maps -/

/-- The tags once `L` is registered. -/
def assigned (sender : AccountAddress) (L : List (ClientOrderId × MarketId × OrderId))
    (T : Tags) : Tags := fun m i =>
  match L.find? fun p => p.2 = (m, i) with
  | some p => some (sender, p.1)
  | none => T m i

/-- The tags once `L` is registered and what is gone is removed. -/
def owed (sender : AccountAddress) (L : List (ClientOrderId × MarketId × OrderId))
    (F : List (MarketId × OrderId)) (T : Tags) : Tags := fun m i =>
  if (m, i) ∈ F then none else assigned sender L T m i

theorem assigned_of_not_mem (h : (m, i) ∉ L.map (·.2)) : assigned sender L T m i = T m i := by
  unfold assigned
  rw [List.find?_eq_none.mpr fun p hp => by
    simpa using fun heq => h (List.mem_map.mpr ⟨p, hp, heq⟩)]

variable {b : OrderBatch} {wire : OrderWire}

/-- **Paying for a batch.** The ids to register are all new, and no two are the same. -/
theorem Tracks.finishBatch (h : b.app.Tracks T) (hkeys : (b.cloidsToRegister.map (·.2)).Nodup)
    (hnew : ∀ p ∈ b.cloidsToRegister, T p.2.1 p.2.2 = none)
    (hcloids : (b.cloidsToRegister.map (·.1)).Nodup)
    (hfree : ∀ p ∈ b.cloidsToRegister, b.app.getOrderByCloid sender p.1 = none) :
    (AppState.finishBatch b sender).2.Tracks
      (owed sender b.cloidsToRegister b.filledOrderCloids T) := by
  have hregister : ∀ (L : List (ClientOrderId × MarketId × OrderId)) {s : AppState} {T : Tags},
      s.Tracks T → (L.map (·.2)).Nodup → (∀ p ∈ L, T p.2.1 p.2.2 = none) →
      (L.map (·.1)).Nodup → (∀ p ∈ L, s.getOrderByCloid sender p.1 = none) →
      (L.foldl (fun s p => s.registerCloid sender p.1 p.2.1 p.2.2) s).Tracks
        (assigned sender L T) := by
    intro L
    induction L with
    | nil => exact fun h _ _ _ _ => h
    | cons p L ih =>
      intro s T h hkeys hnew hcloids hfree
      rw [List.map_cons, List.nodup_cons] at hkeys hcloids
      have hfirst := h.registerCloid (hnew p (.head _)) (hfree p (.head _))
      refine (ih hfirst hkeys.2 (fun q hq => ?_) hcloids.2 fun q hq => ?_).congr ?_
      · rw [if_neg, hnew q (.tail _ hq)]
        rintro ⟨hm, hi⟩
        exact hkeys.1 (List.mem_map.mpr ⟨q, hq, (Prod.ext hm hi).symm⟩)
      · unfold getOrderByCloid AppState.registerCloid
        rw [FinMap.get_insert, if_neg, ← hfree q (.tail _ hq)]
        · rfl
        · intro heq
          exact hcloids.1 (List.mem_map.mpr ⟨q, hq, (PairKey.mk.inj heq).2.symm⟩)
      · funext k j
        by_cases hp : p.2 = (k, j)
        · have hother : (k, j) ∉ L.map (·.2) := hp ▸ hkeys.1
          rw [assigned_of_not_mem hother]
          unfold assigned
          simp [hp]
        · unfold assigned
          have hne : ¬ (p.2.1 = k ∧ p.2.2 = j) := fun h => hp (Prod.ext h.1 h.2)
          simp [hp, hne]
  have hremove : ∀ (F : List (MarketId × OrderId)) {s : AppState} {T : Tags}, s.Tracks T →
      (F.foldl (fun s p => s.removeCloidByOrder p.1 p.2) s).Tracks fun k j =>
        if (k, j) ∈ F then none else T k j := by
    intro F
    induction F with
    | nil => exact fun h => h.congr (by simp)
    | cons p F ih =>
      intro s T h
      refine (ih (h.removeCloidByOrder p.1 p.2)).congr ?_
      funext k j
      by_cases hp : (k, j) = p
      · simp [← hp]
      · have hne : ¬ (p.1 = k ∧ p.2 = j) := fun h => hp (Prod.ext h.1.symm h.2.symm)
        simp [hp, hne]
  exact hremove _ (hregister _ h hkeys hnew hcloids hfree)

/-! ### The books behind the maps -/

/-- The order that a perp book has under an id. -/
def perpBook (s : AppState) (m : MarketId) (i : OrderId) : Option Order :=
  s.perpEngine.bind fun e => e.state.bookGet m i

/-- The order that a spot book has under an id. -/
def spotBook (s : AppState) (m : MarketId) (i : OrderId) : Option Order :=
  s.spotEngine.bind fun e => e.bookGet m i

/-- The tags of the orders that rest. Market ids from 128 on are spot markets. -/
def restingTag (s : AppState) : Tags := fun m i =>
  (if 128 ≤ m then s.spotBook m i else s.perpBook m i).bind (·.tag)

/-- The next order id of a market's engine. -/
def nextId (s : AppState) (m : MarketId) : OrderId :=
  if 128 ≤ m then s.spotEngine.elim 0 (·.nextOrderId)
  else s.perpEngine.elim 0 (·.state.nextOrderId)

/-- Both engines are there, in order. -/
structure Desk (s : AppState) : Prop where
  perp : ∃ e, s.perpEngine = some e ∧ e.Tidy
  spot : ∃ e, s.spotEngine = some e ∧ e.Tidy

theorem perpBook_of_eq {e : Engine} (h : s.perpEngine = some e) (m : MarketId) (i : OrderId) :
    s.perpBook m i = e.state.bookGet m i := by
  unfold perpBook
  rw [h]
  rfl

theorem spotBook_of_eq {e : SpotEngineState} (h : s.spotEngine = some e) (m : MarketId)
    (i : OrderId) : s.spotBook m i = e.bookGet m i := by
  unfold spotBook
  rw [h]
  rfl

theorem restingTag_perp {e : Engine} (h : s.perpEngine = some e) (hm : ¬ 128 ≤ m) :
    s.restingTag m i = e.state.bookTag m i := by
  unfold restingTag
  rw [if_neg hm, perpBook_of_eq h]
  rfl

theorem restingTag_spot {e : SpotEngineState} (h : s.spotEngine = some e) (hm : 128 ≤ m) :
    s.restingTag m i = e.bookTag m i := by
  unfold restingTag
  rw [if_pos hm, spotBook_of_eq h]
  rfl

theorem nextId_perp {e : Engine} (h : s.perpEngine = some e) (hm : ¬ 128 ≤ m) :
    s.nextId m = e.state.nextOrderId := by
  unfold nextId
  rw [if_neg hm, h]
  rfl

theorem nextId_spot {e : SpotEngineState} (h : s.spotEngine = some e) (hm : 128 ≤ m) :
    s.nextId m = e.nextOrderId := by
  unfold nextId
  rw [if_pos hm, h]
  rfl

namespace Desk

/-- The perp engine, on the shared balance sheet. -/
theorem perp_tidy (hs : s.Desk) {e : Engine} (h : s.perp = some e) :
    e.Tidy ∧ ∃ e₀, s.perpEngine = some e₀ ∧ e.state = e₀.state := by
  obtain ⟨e₀, he₀, htidy⟩ := hs.perp
  unfold AppState.perp at h
  rw [he₀] at h
  obtain rfl := Option.some.inj h
  exact ⟨htidy.kept ⟨rfl, rfl, rfl, rfl⟩ rfl, e₀, he₀, rfl⟩

/-- The spot engine, on the shared balance sheet. -/
theorem spot_tidy (hs : s.Desk) {e : SpotEngineState} (h : s.spot = some e) :
    e.Tidy ∧ ∃ e₀, s.spotEngine = some e₀ ∧ e.bookGet = e₀.bookGet ∧
      e.nextOrderId = e₀.nextOrderId := by
  obtain ⟨e₀, he₀, htidy⟩ := hs.spot
  unfold AppState.spot at h
  rw [he₀] at h
  obtain rfl := Option.some.inj h
  have htrades : e₀.TradesOnly { e₀ with unifiedState := s.unifiedState } :=
    ⟨_, _, _, rfl, fun _ => rfl⟩
  exact ⟨(htidy.trades htrades).1, e₀, he₀, rfl, rfl⟩

theorem setPerp (hs : s.Desk) {e : Engine} (he : e.Tidy) : (s.setPerp e).Desk :=
  ⟨⟨e, rfl, he⟩, hs.spot⟩

theorem setSpot (hs : s.Desk) {e : SpotEngineState} (he : e.Tidy) : (s.setSpot e).Desk :=
  ⟨hs.perp, e, rfl, he⟩

/-- No order rests under an id that was not given out. -/
theorem fresh (hs : s.Desk) (hi : s.nextId m ≤ i) : s.restingTag m i = none := by
  by_cases hm : 128 ≤ m
  · obtain ⟨e, he, htidy⟩ := hs.spot
    rw [nextId_spot he hm] at hi
    rw [restingTag_spot he hm]
    exact SpotEngineState.bookTag_fresh htidy hi
  · obtain ⟨e, he, htidy⟩ := hs.perp
    rw [nextId_perp he hm] at hi
    rw [restingTag_perp he hm]
    unfold EngineState.bookTag
    rw [htidy.fresh m i hi]
    rfl

/-- The order that rests in either engine. -/
theorem rests_iff (hs : s.Desk) {o : Order} : s.perpBook m i = some o ∨ s.spotBook m i = some o ↔
    (if 128 ≤ m then s.spotBook m i else s.perpBook m i) = some o := by
  obtain ⟨e, he, htidy⟩ := hs.perp
  obtain ⟨d, hd, htidy'⟩ := hs.spot
  have hperp : 128 ≤ m → s.perpBook m i = none := by
    intro hm
    by_contra hne
    obtain ⟨o, ho⟩ := Option.ne_none_iff_exists'.mp hne
    rw [perpBook_of_eq he] at ho
    obtain ⟨b, hb, -⟩ := Option.bind_eq_some_iff.mp ho
    exact absurd (htidy.venue m (by rw [hb]; rfl)).1 (UInt8.not_lt.mpr hm)
  have hspot : ¬ 128 ≤ m → s.spotBook m i = none := by
    intro hm
    by_contra hne
    obtain ⟨o, ho⟩ := Option.ne_none_iff_exists'.mp hne
    rw [spotBook_of_eq hd] at ho
    obtain ⟨b, hb, -⟩ := Option.bind_eq_some_iff.mp ho
    exact hm (htidy'.venue m (by rw [hb]; rfl))
  by_cases hm : 128 ≤ m
  · rw [if_pos hm, hperp hm]
    simp
  · rw [if_neg hm, hspot hm]
    simp

end Desk

/-! ### Changes that are no business of the maps -/

/-- The maps and the tags of the books are the same. -/
structure Quiet (s s' : AppState) : Prop where
  desk : s'.Desk
  tag : s'.restingTag = s.restingTag
  next : s'.nextId = s.nextId
  cloidToOid : s'.cloidToOid = s.cloidToOid
  oidToCloid : s'.oidToCloid = s.oidToCloid

theorem Tracks.of_maps (h : s.Tracks T) (hc : s'.cloidToOid = s.cloidToOid)
    (ho : s'.oidToCloid = s.oidToCloid) : s'.Tracks T where
  tag m i := by rw [ho, h.tag]
  index := by
    unfold getOrderByCloid
    rw [hc]
    exact h.index

namespace Quiet

theorem tracks (h : Quiet s s') (ht : s.Tracks s.restingTag) : s'.Tracks s'.restingTag := by
  rw [h.tag]
  exact ht.of_maps h.cloidToOid h.oidToCloid

theorem trans (h : Quiet s s') (h' : Quiet s' u) : Quiet s u :=
  ⟨h'.desk, h'.tag.trans h.tag, h'.next.trans h.next, h'.cloidToOid.trans h.cloidToOid,
    h'.oidToCloid.trans h.oidToCloid⟩

theorem refl (hs : s.Desk) : Quiet s s := ⟨hs, rfl, rfl, rfl, rfl⟩

/-- Neither engine nor maps are touched. -/
theorem of_same (hs : s.Desk) (hperp : s'.perpEngine = s.perpEngine)
    (hspot : s'.spotEngine = s.spotEngine) (hc : s'.cloidToOid = s.cloidToOid)
    (ho : s'.oidToCloid = s.oidToCloid) : Quiet s s' where
  desk := ⟨by rw [hperp]; exact hs.perp, by rw [hspot]; exact hs.spot⟩
  tag := by
    unfold restingTag spotBook perpBook
    rw [hperp, hspot]
  next := by
    unfold nextId
    rw [hperp, hspot]
  cloidToOid := hc
  oidToCloid := ho

/-- The perp engine does something that does not change its orders. -/
theorem setPerp (hs : s.Desk) {e e' : Engine} (he : s.perp = some e)
    (hkept : EngineState.OrdersKept e.state e'.state) (hm : e'.matching = e.matching) :
    Quiet s (s.setPerp e') := by
  obtain ⟨htidy, e₀, he₀, hstate⟩ := hs.perp_tidy he
  have hset : (s.setPerp e').perpEngine = some e' := rfl
  refine ⟨hs.setPerp (htidy.kept hkept hm), ?_, ?_, rfl, rfl⟩
  · funext m i
    by_cases hm : 128 ≤ m
    · unfold restingTag
      rw [if_pos hm, if_pos hm]
      rfl
    · rw [restingTag_perp hset hm, restingTag_perp he₀ hm]
      unfold EngineState.bookTag
      rw [hkept.bookGet, hstate]
  · funext m
    by_cases hm : 128 ≤ m
    · unfold nextId
      rw [if_pos hm, if_pos hm]
      rfl
    · rw [nextId_perp hset hm, nextId_perp he₀ hm, hkept.nextOrderId, hstate]

/-- The spot engine moves balances. -/
theorem setSpot (hs : s.Desk) {e e' : SpotEngineState} (he : s.spot = some e)
    (htrades : e.TradesOnly e') : Quiet s (s.setSpot e') := by
  obtain ⟨htidy, e₀, he₀, hbook, hnext⟩ := hs.spot_tidy he
  have hset : (s.setSpot e').spotEngine = some e' := rfl
  obtain ⟨htidy', hnext', -, hbook'⟩ := htidy.trades htrades
  refine ⟨hs.setSpot htidy', ?_, ?_, rfl, rfl⟩
  · funext m i
    by_cases hm : 128 ≤ m
    · rw [restingTag_spot hset hm, restingTag_spot he₀ hm]
      unfold SpotEngineState.bookTag
      rw [hbook', hbook]
    · unfold restingTag
      rw [if_neg hm, if_neg hm]
      rfl
  · funext m
    by_cases hm : 128 ≤ m
    · rw [nextId_spot hset hm, nextId_spot he₀ hm, hnext', hnext]
    · unfold nextId
      rw [if_neg hm, if_neg hm]
      rfl

/-- Effects that move balances and nothing else. -/
def MovesBalance : EffectCond := fun _ effect =>
  match effect with
  | .viewTransfer .. | .usdTransfer .. | .withdraw .. | .evmMove .. => True
  | _ => False

theorem applyMove (hs : s.Desk) {effect : Effect} (hmoves : MovesBalance s effect)
    (h : applyEffect sender effect s = .ok s') : Quiet s s' := by
  have hunified : ∀ {f : UnifiedState → Exec UnifiedState}, s.onUnified f = .ok s' →
      Quiet s s' := by
    intro f h
    obtain ⟨v, -, h⟩ := bind_inv h
    obtain rfl := pure_inv h
    exact of_same hs rfl rfl rfl rfl
  cases effect with
  | viewTransfer k x toEvm =>
    simp only [applyEffect, onSpot] at h
    split at h
    · obtain rfl := pure_inv h
      exact refl hs
    · rename_i e he
      obtain ⟨e', hcall, h⟩ := bind_inv h
      obtain rfl := pure_inv h
      obtain ⟨⟨r, e₁⟩, hmove, hcall⟩ := bind_inv hcall
      obtain rfl := pure_inv hcall
      exact setSpot hs he (SpotEngineState.viewTransfer_only hmove).trades
  | usdTransfer | withdraw | evmMove =>
    simp only [applyEffect] at h
    exact hunified h
  | _ => exact hmoves.elim

theorem of_moves (hs : s.Desk) (h : Run.Reaches (applyEffect sender) MovesBalance s s') :
    Quiet s s' :=
  h.invariant (refl hs) fun _ _ _ hq hmoves hstep => hq.trans (applyMove hq.desk hmoves hstep)

theorem executeUpdateLeverage (hs : s.Desk) {asset : MarketId} {leverage : UInt8}
    {r : Except AppError (List Event)}
    (h : s.executeUpdateLeverage sender asset leverage = .ok (r, s')) : Quiet s s' := by
  unfold AppState.executeUpdateLeverage at h
  split at h
  · obtain ⟨-, rfl⟩ := pair_inv h
    exact of_same hs rfl rfl rfl rfl
  · rename_i e he
    obtain ⟨⟨r₁, e'⟩, h1, h⟩ := bind_inv h
    have hquiet : Quiet s (s.setPerp e') := by
      obtain ⟨leverage, rfl⟩ := Engine.updateLeverage_only h1
      exact setPerp hs he ⟨rfl, rfl, rfl, rfl⟩ rfl
    dsimp only at h
    split at h <;> obtain ⟨-, rfl⟩ := pair_inv h <;> exact hquiet

theorem executeSetMarginMode (hs : s.Desk) (sender : AccountAddress) (mode : MarginMode) :
    Quiet s (s.executeSetMarginMode sender mode).2 := by
  unfold AppState.executeSetMarginMode
  split
  · exact refl hs
  · rename_i e he
    have hquiet : Quiet s (s.setPerp (e.setMarginMode sender mode).2) := by
      unfold Engine.setMarginMode
      split <;> exact setPerp hs he ⟨rfl, rfl, rfl, rfl⟩ rfl
    dsimp only
    split <;> exact hquiet

theorem executeCancelTrigger (hs : s.Desk) (sender : AccountAddress) (orderId : OrderId) :
    Quiet s (s.executeCancelTrigger sender orderId).2 := by
  unfold AppState.executeCancelTrigger
  split
  · exact refl hs
  · rename_i e he
    have hquiet : Quiet s (s.setPerp { e with state := (e.state.removeTriggerOrder orderId).2 }) :=
      setPerp hs he (.of_triggers (EngineState.removeTriggerOrder_only orderId)) rfl
    dsimp only
    split <;> exact hquiet

theorem recordSpotFills (hs : s.Desk) {fills : List SpotFill}
    (h : fills.foldlM recordSpotFill s = .ok s') : Quiet s s' :=
  foldlM_induction (P := Quiet s) h (refl hs) fun fill _ x y hq hstep => by
    obtain ⟨⟨n, z⟩, htake, hstep⟩ := bind_inv hstep
    obtain rfl := pure_inv hstep
    obtain ⟨next, -, htake⟩ := bind_inv htake
    obtain ⟨-, rfl⟩ := pair_inv htake
    exact hq.trans (of_same hq.desk rfl rfl rfl rfl)

theorem recordPerpFills (hs : s.Desk) {fills : List Fill}
    (h : fills.foldlM recordPerpFill s = .ok s') : Quiet s s' :=
  foldlM_induction (P := Quiet s) h (refl hs) fun fill _ x y hq hstep => by
    obtain ⟨⟨n, z⟩, htake, hstep⟩ := bind_inv hstep
    obtain ⟨fee, -, hstep⟩ := bind_inv hstep
    obtain rfl := pure_inv hstep
    obtain ⟨next, -, htake⟩ := bind_inv htake
    obtain ⟨-, rfl⟩ := pair_inv htake
    exact hq.trans (of_same hq.desk rfl rfl rfl rfl)

theorem recordPlaced (hs : s.Desk) (rests : Bool) (sender : AccountAddress) (m : MarketId)
    (o : Order) (reduceOnly : Bool) (t : Timestamp) :
    Quiet s (s.recordPlaced rests sender m o reduceOnly t) := by
  unfold AppState.recordPlaced
  split
  · exact of_same hs rfl rfl rfl rfl
  · exact refl hs

/-- The end of a block: funding and liquidation leave the orders alone. -/
theorem finishBlock (hs : s.Desk) {ord : HashOrder} (h : finishBlock ord s = .ok s') :
    Quiet s s' := by
  obtain ⟨⟨events, s₁⟩, hup, h⟩ := bind_inv h
  obtain rfl := pure_inv h
  have hquiet : Quiet s s₁ := by
    unfold upkeep at hup
    split at hup
    · obtain ⟨-, rfl⟩ := pair_inv hup
      exact refl hs
    · rename_i e he
      obtain ⟨⟨rates, e₁⟩, h1, hup⟩ := bind_inv hup
      obtain ⟨⟨done, e₂⟩, h2, hup⟩ := bind_inv hup
      obtain ⟨-, rfl⟩ := pair_inv hup
      have hupkept := (Engine.processFunding_only h1).trans (Engine.processLiquidations_only h2)
      refine setPerp hs he (.of_upkeep hupkept.state) ?_
      rw [hupkept.data]
  exact hquiet.trans (of_same hquiet.desk rfl rfl rfl rfl)

end Quiet

/-! ### Orders of a batch -/

/-- What is outstanding between two states of a batch: new ids to register, and orders that
are gone. -/
structure Outstanding (sender : AccountAddress) (L : List (ClientOrderId × MarketId × OrderId))
    (F : List (MarketId × OrderId)) (s s' : AppState) : Prop where
  desk : s'.Desk
  next : ∀ m, s.nextId m ≤ s'.nextId m
  cloidToOid : s'.cloidToOid = s.cloidToOid
  oidToCloid : s'.oidToCloid = s.oidToCloid
  tag : s'.restingTag = owed sender L F s.restingTag
  keys : (L.map (·.2)).Nodup
  new : ∀ p ∈ L, s.nextId p.2.1 ≤ p.2.2 ∧ p.2.2 < s'.nextId p.2.1
  old : ∀ p ∈ F, p.2 < s'.nextId p.1

namespace Outstanding

theorem of_quiet (h : Quiet s s') : Outstanding sender [] [] s s' where
  desk := h.desk
  next m := le_of_eq (congrFun h.next m).symm
  cloidToOid := h.cloidToOid
  oidToCloid := h.oidToCloid
  tag := h.tag
  keys := List.nodup_nil
  new _ hp := absurd hp List.not_mem_nil
  old _ hp := absurd hp List.not_mem_nil

/-- An order that was given its id later is no other one of the batch. -/
theorem later (h : Outstanding sender L F s s') (h' : Outstanding sender L' F' s' u)
    (hin : (m, i) ∈ L'.map (·.2)) : (m, i) ∉ L.map (·.2) ∧ (m, i) ∉ F := by
  obtain ⟨p, hp, hkey⟩ := List.mem_map.mp hin
  have hid := (h'.new p hp).1
  rw [hkey] at hid
  refine ⟨fun hl => ?_, fun hf => absurd (h.old _ hf) (Nat.not_lt.mpr hid)⟩
  obtain ⟨q, hq, hkey'⟩ := List.mem_map.mp hl
  have hlt := (h.new q hq).2
  rw [hkey'] at hlt
  exact absurd hlt (Nat.not_lt.mpr hid)

/-- **Sequence.** What is outstanding adds up. -/
theorem trans (h : Outstanding sender L F s s') (h' : Outstanding sender L' F' s' u) :
    Outstanding sender (L ++ L') (F ++ F') s u where
  desk := h'.desk
  next m := (h.next m).trans (h'.next m)
  cloidToOid := h'.cloidToOid.trans h.cloidToOid
  oidToCloid := h'.oidToCloid.trans h.oidToCloid
  tag := by
    rw [h'.tag, h.tag]
    funext k j
    by_cases hgone : (k, j) ∈ F'
    · simp [owed, hgone]
    by_cases hin : (k, j) ∈ L'.map (·.2)
    · obtain ⟨hl, hf⟩ := h.later h' hin
      have hnone : (L.find? fun p => p.2 = (k, j)) = none :=
        List.find?_eq_none.mpr fun p hp => by
          simpa using fun heq => hl (List.mem_map.mpr ⟨p, hp, heq⟩)
      have hsome : (L'.find? fun p => p.2 = (k, j)) ≠ none := by
        obtain ⟨p, hp, hkey⟩ := List.mem_map.mp hin
        exact fun h => absurd hkey (by simpa using List.find?_eq_none.mp h p hp)
      obtain ⟨p, hp⟩ := Option.ne_none_iff_exists'.mp hsome
      simp [owed, assigned, hgone, hf, List.find?_append, hnone, hp]
    · have hnone : (L'.find? fun p => p.2 = (k, j)) = none :=
        List.find?_eq_none.mpr fun p hp => by
          simpa using fun heq => hin (List.mem_map.mpr ⟨p, hp, heq⟩)
      simp [owed, assigned, hgone, List.find?_append, hnone]
  keys := by
    rw [List.map_append]
    exact h.keys.append h'.keys fun k hl hl' => (h.later h' hl').1 hl
  new p hp := by
    rcases List.mem_append.mp hp with hp | hp
    · exact ⟨(h.new p hp).1, (h.new p hp).2.trans_le (h'.next _)⟩
    · exact ⟨(h.next _).trans (h'.new p hp).1, (h'.new p hp).2⟩
  old p hp := by
    rcases List.mem_append.mp hp with hp | hp
    · exact (h.old p hp).trans_le (h'.next _)
    · exact h'.old p hp

theorem quiet (h : Outstanding sender L F s s') (h' : Quiet s' u) :
    Outstanding sender L F s u := by
  have hboth := h.trans (of_quiet h')
  rwa [List.append_nil, List.append_nil] at hboth

/-- The registration that a placement asks for. -/
def registration (m : MarketId) (i : OrderId)
    (new : Option (AccountAddress × ClientOrderId)) : List (ClientOrderId × MarketId × OrderId) :=
  (new.map fun p => (p.2, m, i)).toList

/-- **One placement.** Under new ids there is at most the order itself, with the sender's
client order id; what lost its tag is gone. -/
theorem of_placement {new : Option (AccountAddress × ClientOrderId)} (hs : s.Desk)
    (hs' : s'.Desk) (hnext : ∀ m, s.nextId m ≤ s'.nextId m)
    (hc : s'.cloidToOid = s.cloidToOid) (ho : s'.oidToCloid = s.oidToCloid)
    (hnew : ∀ p, new = some p → p.1 = sender ∧ s.nextId m < s'.nextId m)
    (hgone : ∀ p ∈ F, p.2 < s.nextId p.1 ∧ s'.restingTag p.1 p.2 = none)
    (hold : ∀ k j, j < s.nextId k → s'.restingTag k j = s.restingTag k j ∨ (k, j) ∈ F)
    (hplaced : ∀ k j, s.nextId k ≤ j →
      s'.restingTag k j = Engine.newTag m (s.nextId m) new k j) :
    Outstanding sender (registration m (s.nextId m) new) F s s' where
  desk := hs'
  next := hnext
  cloidToOid := hc
  oidToCloid := ho
  tag := by
    funext k j
    unfold owed
    by_cases hf : (k, j) ∈ F
    · rw [if_pos hf]
      exact (hgone _ hf).2
    rw [if_neg hf]
    rcases lt_or_ge j (s.nextId k) with hj | hj
    · rw [(hold k j hj).resolve_right hf]
      refine (assigned_of_not_mem fun hin => ?_).symm
      obtain ⟨p, hp, hkey⟩ := List.mem_map.mp hin
      obtain ⟨q, -, rfl⟩ := Option.map_eq_some_iff.mp (Option.mem_toList.mp hp)
      obtain ⟨rfl, rfl⟩ := Prod.mk.inj hkey
      exact absurd hj (Nat.lt_irrefl _)
    · rw [hplaced k j hj]
      unfold Engine.newTag registration assigned
      cases new with
      | none => simp [hs.fresh hj]
      | some p =>
        by_cases hk : m = k ∧ s.nextId m = j
        · obtain ⟨rfl, rfl⟩ := hk
          simp [(hnew p rfl).1.symm]
        · simp [hk, hs.fresh hj]
  keys := by
    unfold registration
    cases new <;> simp
  new p hp := by
    obtain ⟨q, hq, rfl⟩ := Option.map_eq_some_iff.mp (Option.mem_toList.mp hp)
    exact ⟨le_rfl, (hnew q hq).2⟩
  old p hp := (hgone p hp).1.trans_le (hnext _)

end Outstanding

/-- What a step of a batch adds to its lists is outstanding. -/
def Grows (sender : AccountAddress) (b b' : OrderBatch) : Prop :=
  ∃ L F, b'.cloidsToRegister = b.cloidsToRegister ++ L ∧
    b'.filledOrderCloids = b.filledOrderCloids ++ F ∧ Outstanding sender L F b.app b'.app

theorem Grows.refl (hs : b.app.Desk) (events : List Event) :
    Grows sender b { b with events } :=
  ⟨[], [], (List.append_nil _).symm, (List.append_nil _).symm, .of_quiet (.refl hs)⟩

/-- The client order id to register is that of an order that rests. -/
theorem restingCloid_eq (rests : Bool) (o : Order) (m : MarketId) :
    restingCloid rests o m = Outstanding.registration m o.id (if rests then o.tag else none) := by
  unfold restingCloid Outstanding.registration Order.tag
  cases o.clientOrderId <;> cases rests <;> rfl

section Spot

variable {e e' : SpotEngineState} {r : Except Error (Order × List SpotFill)}

theorem placedTag_spot {p : AccountAddress × ClientOrderId}
    (h : SpotEngineState.PlacedTags sender m r e e')
    (hp : SpotEngineState.placedTag r = some p) :
    p.1 = sender ∧ e.nextOrderId < e'.nextOrderId := by
  unfold SpotEngineState.placedTag at hp
  split at hp
  · rename_i o fills
    obtain ⟨howner, -, hlt, -⟩ := h.order o fills rfl
    split at hp
    · obtain ⟨c, -, rfl⟩ := Option.map_eq_some_iff.mp hp
      exact ⟨howner, hlt⟩
    · cases hp
  · cases hp

/-- A spot placement, with the makers of its fills that are gone. -/
theorem Outstanding.of_spot (hs : s.Desk) (he : s.spot = some e) (hm : 128 ≤ m)
    (h : SpotEngineState.PlacedTags sender m r e e')
    (hgone : ∀ p, p ∈ F ↔ SpotEngineState.MakerIn r p.1 p.2 ∧ e'.bookGet p.1 p.2 = none) :
    Outstanding sender (registration m e.nextOrderId (SpotEngineState.placedTag r)) F s
      (s.setSpot e') := by
  obtain ⟨-, e₀, he₀, hbook, hnext⟩ := hs.spot_tidy he
  have hset : (s.setSpot e').spotEngine = some e' := rfl
  have htag : ∀ k j, 128 ≤ k → s.restingTag k j = e.bookTag k j := by
    intro k j hk
    rw [restingTag_spot he₀ hk]
    unfold SpotEngineState.bookTag
    rw [hbook]
  have hid : ∀ k, 128 ≤ k → s.nextId k = e.nextOrderId := fun k hk => by
    rw [nextId_spot he₀ hk, hnext]
  have hperp : ∀ k j, ¬ 128 ≤ k → (s.setSpot e').restingTag k j = s.restingTag k j := by
    intro k j hk
    unfold restingTag
    rw [if_neg hk, if_neg hk]
    rfl
  rw [← hid m hm]
  refine of_placement hs (hs.setSpot h.tidy) (fun k => ?_) rfl rfl (fun p hp => ?_)
    (fun p hp => ?_) (fun k j hj => ?_) fun k j hj => ?_
  · by_cases hk : 128 ≤ k
    · rw [hid k hk, nextId_spot hset hk]
      exact h.next
    · unfold nextId
      rw [if_neg hk, if_neg hk]
      exact le_rfl
  · rw [hid m hm, nextId_spot hset hm]
    exact placedTag_spot h hp
  · obtain ⟨⟨o, fills, hr, hin⟩, hnone⟩ := (hgone p).mp hp
    obtain ⟨-, -, -, hmakers⟩ := h.order o fills hr
    obtain ⟨hpm, hlt⟩ := hmakers p hin
    have hk : 128 ≤ p.1 := hpm ▸ hm
    refine ⟨by rw [hid p.1 hk]; exact hlt, ?_⟩
    rw [restingTag_spot hset hk]
    unfold SpotEngineState.bookTag
    rw [hnone]
    rfl
  · by_cases hk : 128 ≤ k
    · rw [hid k hk] at hj
      rw [restingTag_spot hset hk, htag k j hk]
      exact (h.tag k j hj).imp_right fun ⟨hnone, hmaker⟩ => (hgone (k, j)).mpr ⟨hmaker, hnone⟩
    · exact .inl (hperp k j hk)
  · by_cases hk : 128 ≤ k
    · rw [hid k hk] at hj
      rw [restingTag_spot hset hk, hid m hm]
      exact h.placed k j hj
    · rw [hperp k j hk, hs.fresh hj]
      exact (if_neg fun hc : m = k ∧ _ => hk (hc.1 ▸ hm)).symm

/-- One spot order of a batch. -/
theorem batchSpotOrder_grows {b b' : OrderBatch} {q : OrderRequest} {t : Timestamp}
    (hs : b.app.Desk) (hm : 128 ≤ m) (hq : q.marketId = m)
    (hcond : ∀ e, b.app.spot = some e → e.PlaceFollows sender m q t)
    (h : batchSpotOrder b sender m q t = .ok b') : Grows sender b b' := by
  unfold batchSpotOrder at h
  split at h
  · obtain rfl := pure_inv h
    exact .refl hs _
  · rename_i e he
    obtain ⟨⟨r, e'⟩, hplace, h⟩ := bind_inv h
    have htags := SpotEngineState.placeOrder_tags (hs.spot_tidy he).1 hq (hcond e he) hplace
    cases r with
    | error err =>
      obtain rfl := pure_inv h
      refine ⟨[], [], (List.append_nil _).symm, (List.append_nil _).symm,
        .of_spot hs he hm htags fun p => ?_⟩
      simp [SpotEngineState.MakerIn]
    | ok placed =>
      obtain ⟨o, fills⟩ := placed
      obtain ⟨app, hfills, h⟩ := bind_inv h
      obtain rfl := pure_inv h
      obtain ⟨-, hid, -, -⟩ := htags.order o fills rfl
      have hout := Outstanding.of_spot hs he hm htags (F := (SpotEngineState.makers fills).filter
        fun p => (e'.getOrder p.1 p.2).isNone) fun p => by
          have hsame := htags.tidy.coherent.isSome_bookGet p.1 p.2
          rw [List.mem_filter, ← Option.not_isSome, ← hsame, Option.not_isSome,
            Option.isNone_iff_eq_none]
          refine and_congr_left fun _ => ⟨fun hin => ⟨o, fills, rfl, hin⟩, ?_⟩
          rintro ⟨o', fills', ⟨⟩, hin⟩
          exact hin
      have hfilled := Quiet.recordSpotFills hout.desk hfills
      have hregister : restingCloid (!o.isFilled && !o.remainingSize.isZero) o m =
          Outstanding.registration m e.nextOrderId
            (SpotEngineState.placedTag (.ok (o, fills))) := by
        rw [restingCloid_eq, hid]
        rfl
      refine ⟨_, _, rfl, rfl, ?_⟩
      rw [hregister]
      exact hout.quiet (hfilled.trans (.recordPlaced hfilled.desk _ _ _ _ _ _))

end Spot

section Perp

variable {e e' : Engine} {r : Except Error (Order × List Fill)}

theorem placedTag_perp {p : AccountAddress × ClientOrderId}
    (h : Engine.SubmittedTags (fun _ _ => True) sender m r e.state e'.state)
    (hp : Engine.placedTag r = some p) :
    p.1 = sender ∧ e.state.nextOrderId < e'.state.nextOrderId := by
  unfold Engine.placedTag at hp
  split at hp
  · rename_i o fills
    obtain ⟨howner, -, hlt, -⟩ := h.order o fills rfl
    split at hp
    · obtain ⟨c, -, rfl⟩ := Option.map_eq_some_iff.mp hp
      exact ⟨howner, hlt⟩
    · cases hp
  · cases hp

/-- A perp placement, with the makers of its fills that are gone. -/
theorem Outstanding.of_perp (hs : s.Desk) (he : s.perp = some e) (hm : ¬ 128 ≤ m)
    (htidy : e'.Tidy) (h : Engine.SubmittedTags (fun _ _ => True) sender m r e.state e'.state)
    (hgone : ∀ p, p ∈ F ↔ Engine.MakerIn r p.1 p.2 ∧ e'.state.bookGet p.1 p.2 = none) :
    Outstanding sender (registration m e.state.nextOrderId (Engine.placedTag r)) F s
      (s.setPerp e') := by
  obtain ⟨-, e₀, he₀, hstate⟩ := hs.perp_tidy he
  have hset : (s.setPerp e').perpEngine = some e' := rfl
  have htag : ∀ k j, ¬ 128 ≤ k → s.restingTag k j = e.state.bookTag k j := fun k j hk => by
    rw [restingTag_perp he₀ hk, hstate]
  have hid : ∀ k, ¬ 128 ≤ k → s.nextId k = e.state.nextOrderId := fun k hk => by
    rw [nextId_perp he₀ hk, hstate]
  have hspot : ∀ k j, 128 ≤ k → (s.setPerp e').restingTag k j = s.restingTag k j := by
    intro k j hk
    unfold restingTag
    rw [if_pos hk, if_pos hk]
    rfl
  rw [← hid m hm]
  refine of_placement hs (hs.setPerp htidy) (fun k => ?_) rfl rfl (fun p hp => ?_)
    (fun p hp => ?_) (fun k j hj => ?_) fun k j hj => ?_
  · by_cases hk : 128 ≤ k
    · unfold nextId
      rw [if_pos hk, if_pos hk]
      exact le_rfl
    · rw [hid k hk, nextId_perp hset hk]
      exact h.kept.next
  · rw [hid m hm, nextId_perp hset hm]
    exact placedTag_perp h hp
  · obtain ⟨⟨o, fills, hr, hin⟩, hnone⟩ := (hgone p).mp hp
    obtain ⟨-, -, -, hmakers⟩ := h.order o fills hr
    obtain ⟨hpm, hlt⟩ := hmakers p hin
    have hk : ¬ 128 ≤ p.1 := hpm ▸ hm
    refine ⟨by rw [hid p.1 hk]; exact hlt, ?_⟩
    rw [restingTag_perp hset hk]
    unfold EngineState.bookTag
    rw [hnone]
    rfl
  · by_cases hk : 128 ≤ k
    · exact .inl (hspot k j hk)
    · rw [hid k hk] at hj
      rw [restingTag_perp hset hk, htag k j hk]
      exact (h.kept.tag k j hj).imp_right fun ⟨⟨_, hmaker⟩, hnone⟩ =>
        (hgone (k, j)).mpr ⟨hmaker, hnone⟩
  · by_cases hk : 128 ≤ k
    · rw [hspot k j hk, hs.fresh hj]
      exact (if_neg fun hc : m = k ∧ _ => hm (hc.1 ▸ hk)).symm
    · rw [hid k hk] at hj
      rw [restingTag_perp hset hk, hid m hm]
      exact h.kept.placed k j hj

/-- One perp order of a batch. -/
theorem batchPerpOrder_grows {b b' : OrderBatch} {q : OrderRequest} {t : Timestamp}
    (hs : b.app.Desk) (hm : ¬ 128 ≤ m) (hq : q.marketId = m)
    (hcond : ∀ e, b.app.perp = some e → e.PlaceFollows sender q t)
    (h : batchPerpOrder b sender m q t = .ok b') : Grows sender b b' := by
  unfold batchPerpOrder at h
  split at h
  · obtain rfl := pure_inv h
    exact .refl hs _
  · rename_i e he
    obtain ⟨⟨r, e'⟩, hplace, h⟩ := bind_inv h
    obtain ⟨htidy, htags⟩ := Engine.placeOrder_tags (hs.perp_tidy he).1 (hcond e he) hplace
    rw [hq] at htags
    cases r with
    | error err =>
      obtain rfl := pure_inv h
      refine ⟨[], [], (List.append_nil _).symm, (List.append_nil _).symm,
        .of_perp hs he hm htidy htags fun p => ?_⟩
      simp [Engine.MakerIn]
    | ok placed =>
      obtain ⟨o, fills⟩ := placed
      obtain ⟨app, hfills, h⟩ := bind_inv h
      obtain rfl := pure_inv h
      obtain ⟨-, hid, -, -⟩ := htags.order o fills rfl
      have hout := Outstanding.of_perp hs he hm htidy htags (F := (Engine.makers fills).filter
        fun p => (e'.state.bookGet p.1 p.2).isNone) fun p => by
          rw [List.mem_filter, Option.isNone_iff_eq_none]
          refine and_congr_left fun _ => ⟨fun hin => ⟨o, fills, rfl, hin⟩, ?_⟩
          rintro ⟨o', fills', ⟨⟩, hin⟩
          exact hin
      have hfilled := Quiet.recordPerpFills hout.desk hfills
      have hregister : restingCloid (!o.isFilled && o.shouldRest) o m =
          Outstanding.registration m e.state.nextOrderId
            (Engine.placedTag (.ok (o, fills))) := by
        rw [restingCloid_eq, hid]
        rfl
      refine ⟨_, _, rfl, rfl, ?_⟩
      rw [hregister]
      exact hout.quiet (hfilled.trans (.recordPlaced hfilled.desk _ _ _ _ _ _))

end Perp

/-- What the placement of an order of a batch must avoid in its engine. -/
def OrderFollows (s : AppState) (sender : AccountAddress) (m : MarketId) (q : OrderRequest)
    (t : Timestamp) : Prop :=
  if 128 ≤ m then ∀ e, s.spot = some e → e.PlaceFollows sender m q t
  else ∀ e, s.perp = some e → e.PlaceFollows sender q t

/-- What a batch must avoid: placements that lose track of a client order id, ids that are in
use, and an order that cannot be read while something is outstanding. -/
def OrdersFollow (sender : AccountAddress) (t : Timestamp) : List OrderWire → OrderBatch → Prop
  | [], b => (b.cloidsToRegister.map (·.1)).Nodup ∧
    ∀ p ∈ b.cloidsToRegister, b.app.getOrderByCloid sender p.1 = none
  | wire :: wires, b =>
    match wire.toOrderRequest with
    | .error _ => (∀ p ∈ b.cloidsToRegister, p.2 ∈ b.filledOrderCloids) ∧
      ∀ p ∈ b.filledOrderCloids,
        b.app.oidToCloid[(⟨p.1, p.2⟩ : PairKey MarketId OrderId)]? = none
    | .ok q => b.app.OrderFollows sender wire.a q t ∧
      ∀ b', batchOrder b sender wire t = .ok (.ok b') → OrdersFollow sender t wires b'

instance (s : AppState) (sender : AccountAddress) (m : MarketId) (q : OrderRequest)
    (t : Timestamp) : Decidable (s.OrderFollows sender m q t) :=
  decidable_of_iff (if 128 ≤ m then ∀ e ∈ s.spot, e.PlaceFollows sender m q t
    else ∀ e ∈ s.perp, e.PlaceFollows sender q t) Iff.rfl

instance OrdersFollow.decidable (sender : AccountAddress) (t : Timestamp) :
    ∀ wires b, Decidable (OrdersFollow sender t wires b)
  | [], b => inferInstanceAs (Decidable ((b.cloidsToRegister.map (·.1)).Nodup ∧
    ∀ p ∈ b.cloidsToRegister, b.app.getOrderByCloid sender p.1 = none))
  | wire :: wires, b =>
    have := OrdersFollow.decidable sender t wires
    match h : wire.toOrderRequest with
    | .error err => decidable_of_iff ((∀ p ∈ b.cloidsToRegister, p.2 ∈ b.filledOrderCloids) ∧
        ∀ p ∈ b.filledOrderCloids,
          b.app.oidToCloid[(⟨p.1, p.2⟩ : PairKey MarketId OrderId)]? = none) (by
      unfold OrdersFollow
      rw [h])
    | .ok q =>
      let rest (x : Except TransactionError OrderBatch) : Prop := match x with
        | .ok b' => OrdersFollow sender t wires b'
        | .error _ => True
      have : DecidablePred rest := fun x => match x with
        | .ok b' => this b'
        | .error _ => .isTrue trivial
      decidable_of_iff (b.app.OrderFollows sender wire.a q t ∧
          After (batchOrder b sender wire t) rest) (by
        unfold OrdersFollow
        rw [h]
        refine and_congr_right fun _ => ⟨fun h b' hb => h _ hb, fun h x hx => ?_⟩
        cases x with
        | error err => trivial
        | ok b' => exact h b' hx)

theorem batchOrder_grows {b' : OrderBatch} {q : OrderRequest} {t : Timestamp} (hs : b.app.Desk)
    (hq : wire.toOrderRequest = .ok q) (hcond : b.app.OrderFollows sender wire.a q t)
    (h : batchOrder b sender wire t = .ok (.ok b')) : Grows sender b b' := by
  unfold batchOrder at h
  rw [hq] at h
  obtain ⟨b₁, h1, h⟩ := bind_inv h
  obtain rfl : b₁ = b' := by simpa using h
  have hmarket := OrderWire.toOrderRequest_marketId hq
  unfold OrderFollows at hcond
  split at h1
  · rename_i hm
    rw [if_pos hm] at hcond
    exact batchSpotOrder_grows hs hm hmarket hcond h1
  · rename_i hm
    rw [if_neg hm] at hcond
    exact batchPerpOrder_grows hs hm hmarket hcond h1

/-- The desk stands, and the maps are those of its books. -/
structure Settled (s : AppState) : Prop where
  desk : s.Desk
  tracks : s.Tracks s.restingTag

theorem Quiet.settled (h : Quiet s s') (hs : s.Settled) : s'.Settled := ⟨h.desk, h.tracks hs.tracks⟩

/-- Only the maps change, to those of given tags. -/
theorem Settled.of_books (hs : s.Desk) (hbooks : SameButBooks s s')
    (ht : s'.Tracks s.restingTag) : s'.Settled := by
  have hperp : s'.perpEngine = s.perpEngine := by rw [hbooks]
  have hspot : s'.spotEngine = s.spotEngine := by rw [hbooks]
  refine ⟨⟨by rw [hperp]; exact hs.perp, by rw [hspot]; exact hs.spot⟩, ht.congr ?_⟩
  unfold restingTag perpBook spotBook
  rw [hperp, hspot]

/-- **Batch.** From what was outstanding when it started, to the end or to an order that
cannot be read. -/
theorem Settled.runOrders (hs : s.Settled) {t : Timestamp} {wires : List OrderWire}
    {r : Except AppError (List Event)}
    (hout : Outstanding sender b.cloidsToRegister b.filledOrderCloids s b.app)
    (hcond : OrdersFollow sender t wires b) (h : runOrders sender t wires b = .ok (r, s')) :
    s'.Settled := by
  induction wires generalizing b with
  | nil =>
    obtain ⟨-, rfl⟩ := pair_inv h
    have hpaid := (hs.tracks.of_maps hout.cloidToOid hout.oidToCloid).finishBatch hout.keys
      (fun p hp => hs.desk.fresh (hout.new p hp).1) hcond.1 hcond.2
    rw [← hout.tag] at hpaid
    refine .of_books hout.desk ?_ hpaid
    exact (SameButBooks.foldl (fun _ _ => .registerCloid _ _ _ _) _ _).trans
      (.foldl (fun _ _ => .removeCloidByOrder _ _) _ _)
  | cons wire wires ih =>
    obtain ⟨r₁, h1, h⟩ := bind_inv h
    unfold OrdersFollow at hcond
    cases hq : wire.toOrderRequest with
    | error err =>
      rw [hq] at hcond
      unfold batchOrder at h1
      rw [hq] at h1
      obtain rfl := pure_inv h1
      obtain ⟨-, rfl⟩ := pair_inv h
      -- whatever is outstanding cancels out
      have htag : b.app.restingTag = s.restingTag := by
        rw [hout.tag]
        funext k j
        unfold owed
        split
        · rename_i hf
          have hnone := hcond.2 (k, j) hf
          rw [hout.oidToCloid, hs.tracks.tag] at hnone
          exact hnone.symm
        · rename_i hf
          refine assigned_of_not_mem fun hin => hf ?_
          obtain ⟨p, hp, hkey⟩ := List.mem_map.mp hin
          exact hkey ▸ hcond.1 p hp
      refine ⟨hout.desk, ?_⟩
      rw [htag]
      exact hs.tracks.of_maps hout.cloidToOid hout.oidToCloid
    | ok q =>
      rw [hq] at hcond
      cases r₁ with
      | error err =>
        unfold batchOrder at h1
        rw [hq] at h1
        obtain ⟨b₁, -, h1⟩ := bind_inv h1
        cases pure_inv h1
      | ok b₁ =>
        obtain ⟨L, F, hl, hf, hgrown⟩ := batchOrder_grows hout.desk hq hcond.1 h1
        have hall := hout.trans hgrown
        rw [← hl, ← hf] at hall
        exact ih hall (hcond.2 b₁ h1) h

/-! ### Cancellations -/

/-- The dropped orders had the given ids; the maps stand still. -/
structure Cancelling (sender : AccountAddress) (cloids : List ClientOrderId) (s s' : AppState) :
    Prop where
  desk : s'.Desk
  cloidToOid : s'.cloidToOid = s.cloidToOid
  oidToCloid : s'.oidToCloid = s.oidToCloid
  dropped : Dropped sender cloids s.restingTag s'.restingTag

/-- Markets where the sender has no spot order with a client order id. -/
def NoneTagged (s : AppState) (sender : AccountAddress) (ms : List MarketId) : Prop :=
  ∀ m ∈ ms, ∀ i c, (s.spotBook m i).bind (·.tag) ≠ some (sender, c)

namespace Cancelling

variable {cloids cloids' : List ClientOrderId}

theorem refl (hs : s.Desk) : Cancelling sender [] s s := ⟨hs, rfl, rfl, .refl _ _⟩

theorem trans (h : Cancelling sender cloids s s') (h' : Cancelling sender cloids' s' u) :
    Cancelling sender (cloids ++ cloids') s u :=
  ⟨h'.desk, h'.cloidToOid.trans h.cloidToOid, h'.oidToCloid.trans h.oidToCloid,
    h.dropped.trans h'.dropped⟩

/-- **Paying.** -/
theorem settled (h : Cancelling sender cloids s s') (hs : s.Settled) :
    (s'.removeCloids sender cloids).Settled :=
  .of_books h.desk (.removeCloids _)
    ((hs.tracks.of_maps h.cloidToOid h.oidToCloid).removeCloids h.dropped)

/-- Nothing is owed when no order had an id. -/
theorem settled_nil (h : Cancelling sender [] s s') (hs : s.Settled) : s'.Settled :=
  h.settled hs

theorem setSpot (hs : s.Desk) {e e' : SpotEngineState} (he : s.spot = some e) (htidy : e'.Tidy)
    (h : Dropped sender cloids e.bookTag e'.bookTag) :
    Cancelling sender cloids s (s.setSpot e') := by
  obtain ⟨hbefore, e₀, he₀, hbook, -⟩ := hs.spot_tidy he
  have hset : (s.setSpot e').spotEngine = some e' := rfl
  have htag : ∀ k j, 128 ≤ k → s.restingTag k j = e.bookTag k j := by
    intro k j hk
    rw [restingTag_spot he₀ hk]
    unfold SpotEngineState.bookTag
    rw [hbook]
  refine ⟨hs.setSpot htidy, rfl, rfl, fun k j => ?_, fun c hc => ?_⟩
  · by_cases hk : 128 ≤ k
    · rw [restingTag_spot hset hk, htag k j hk]
      exact h.tag k j
    · left
      unfold restingTag
      rw [if_neg hk, if_neg hk]
      rfl
  · obtain ⟨k, j, hbefore', hafter⟩ := h.gone c hc
    have hk : 128 ≤ k := by
      obtain ⟨o, ho, -⟩ := Option.bind_eq_some_iff.mp hbefore'
      obtain ⟨b, hb, -⟩ := Option.bind_eq_some_iff.mp ho
      exact hbefore.venue k (by rw [hb]; rfl)
    exact ⟨k, j, (htag k j hk).trans hbefore', (restingTag_spot hset hk).trans hafter⟩

theorem setPerp (hs : s.Desk) {e e' : Engine} (he : s.perp = some e) (htidy : e'.Tidy)
    (h : Dropped sender cloids e.state.bookTag e'.state.bookTag) :
    Cancelling sender cloids s (s.setPerp e') := by
  obtain ⟨hbefore, e₀, he₀, hstate⟩ := hs.perp_tidy he
  have hset : (s.setPerp e').perpEngine = some e' := rfl
  have htag : ∀ k j, ¬ 128 ≤ k → s.restingTag k j = e.state.bookTag k j := fun k j hk => by
    rw [restingTag_perp he₀ hk, hstate]
  refine ⟨hs.setPerp htidy, rfl, rfl, fun k j => ?_, fun c hc => ?_⟩
  · by_cases hk : 128 ≤ k
    · left
      unfold restingTag
      rw [if_pos hk, if_pos hk]
      rfl
    · rw [restingTag_perp hset hk, htag k j hk]
      exact h.tag k j
  · obtain ⟨k, j, hbefore', hafter⟩ := h.gone c hc
    have hk : ¬ 128 ≤ k := by
      obtain ⟨o, ho, -⟩ := Option.bind_eq_some_iff.mp hbefore'
      obtain ⟨b, hb, -⟩ := Option.bind_eq_some_iff.mp ho
      exact UInt8.not_le.mpr (hbefore.venue k (by rw [hb]; rfl)).1
    exact ⟨k, j, (htag k j hk).trans hbefore', (restingTag_perp hset hk).trans hafter⟩

/-- **One cancellation**, by order id. When it succeeds, the id of the order it returns is
the only one that is dropped. -/
theorem cancelInEngine (hs : s.Desk) {r : Option (Except Error Order)}
    (h : s.cancelInEngine sender m i = .ok (r, s')) :
    (∃ o, r = some (.ok o) ∧ o.tag = s.restingTag m i ∧
      Cancelling sender o.clientOrderId.toList s s') ∨
    (∀ o, r ≠ some (.ok o)) ∧ Cancelling sender [] s s' := by
  unfold AppState.cancelInEngine at h
  split at h
  · rename_i hm
    split at h
    · obtain ⟨rfl, rfl⟩ := pair_inv h
      exact .inr ⟨by simp, refl hs⟩
    · rename_i e he
      obtain ⟨⟨r₁, e'⟩, h1, h⟩ := bind_inv h
      obtain ⟨rfl, rfl⟩ := pair_inv h
      obtain ⟨htidy, e₀, he₀, hbook, -⟩ := hs.spot_tidy he
      obtain ⟨htidy', -, hcases⟩ := SpotEngineState.cancelOrder_tags htidy h1
      rcases hcases with ⟨err, rfl, rfl⟩ | ⟨o, rfl, -, htag, hdropped⟩
      · exact .inr ⟨by simp, setSpot hs he htidy' (.refl _ _)⟩
      · refine .inl ⟨o, rfl, htag.trans ?_, setSpot hs he htidy' hdropped⟩
        rw [restingTag_spot he₀ hm]
        unfold SpotEngineState.bookTag
        rw [hbook]
  · rename_i hm
    split at h
    · obtain ⟨rfl, rfl⟩ := pair_inv h
      exact .inr ⟨by simp, refl hs⟩
    · rename_i e he
      obtain ⟨htidy, e₀, he₀, hstate⟩ := hs.perp_tidy he
      generalize hcall : e.cancelOrder sender m i = x at h
      obtain ⟨r₁, e'⟩ := x
      obtain ⟨rfl, rfl⟩ := pair_inv h
      obtain ⟨htidy', -, hcases⟩ := Engine.cancelOrder_tags htidy hcall
      rcases hcases with ⟨err, rfl, rfl⟩ | ⟨o, rfl, htag, hdropped⟩
      · exact .inr ⟨by simp, setPerp hs he htidy' (.refl _ _)⟩
      · refine .inl ⟨o, rfl, htag.trans ?_, setPerp hs he htidy' hdropped⟩
        rw [restingTag_perp he₀ hm, hstate]

variable {b b' : CancelBatch} {ms : List MarketId} {os : List Order}

/-- One cancellation of a batch. -/
theorem batchCancel {cancel : CancelWire} (h : Cancelling sender b.cloidsToRemove s b.app)
    (hret : batchCancel sender b cancel = .ok b') :
    Cancelling sender b'.cloidsToRemove s b'.app := by
  obtain ⟨⟨r, app⟩, hcall, hret⟩ := bind_inv hret
  rcases cancelInEngine h.desk hcall with ⟨o, rfl, -, hone⟩ | ⟨hno, hone⟩
  · obtain rfl := pure_inv hret
    exact h.trans hone
  · have hboth := h.trans hone
    rw [List.append_nil] at hboth
    dsimp only at hret
    split at hret
    · obtain rfl := pure_inv hret
      split <;> exact h
    · exact absurd rfl (hno _)
    · obtain rfl := pure_inv hret
      exact hboth

/-- One cancellation of a batch, by client order id. What is found was registered before the
batch, and is cancelled at most once. -/
theorem batchCancelByCloid {cancel : CancelByCloidWire} (hs : s.Settled)
    (h : Cancelling sender b.cloidsToRemove s b.app)
    (hret : batchCancelByCloid sender b cancel = .ok b') :
    Cancelling sender b'.cloidsToRemove s b'.app := by
  unfold AppState.batchCancelByCloid at hret
  split at hret
  · obtain rfl := pure_inv hret
    exact h
  · rename_i k j hfound
    have htag : s.restingTag k j = some (sender, cancel.cloid) := by
      refine hs.tracks.found.mp ?_
      unfold getOrderByCloid at hfound ⊢
      rw [← h.cloidToOid]
      exact hfound
    split at hret
    · obtain rfl := pure_inv hret
      exact h
    · obtain ⟨⟨r, app⟩, hcall, hret⟩ := bind_inv hret
      rcases cancelInEngine h.desk hcall with ⟨o, rfl, ho, hone⟩ | ⟨hno, hone⟩
      · obtain rfl := pure_inv hret
        rcases h.dropped.tag k j with hsame | ⟨hnone, c, hc, htag'⟩
        · -- it still rests: the order is the one with this id
          rw [hsame, htag] at ho
          obtain ⟨c, hcloid, hpair⟩ := Option.map_eq_some_iff.mp ho
          obtain ⟨-, rfl⟩ := Prod.mk.inj hpair
          rw [hcloid] at hone
          exact h.trans hone
        · -- it was cancelled before, under the same id
          rw [htag] at htag'
          obtain ⟨-, hsame⟩ := Prod.mk.inj (Option.some.inj htag')
          have hcloid : o.clientOrderId = none := Order.tag_eq_none.mp (ho.trans hnone)
          rw [hcloid] at hone
          have hboth := h.trans hone
          rw [Option.toList_none, List.append_nil] at hboth
          refine ⟨hboth.desk, hboth.cloidToOid, hboth.oidToCloid, fun k j => ?_, fun c' hc' => ?_⟩
          · refine (hboth.dropped.tag k j).imp_right fun ⟨hnone, c, hin, heq⟩ => ?_
            exact ⟨hnone, c, List.mem_append_left _ hin, heq⟩
          · rcases List.mem_append.mp hc' with hin | hin
            · exact hboth.dropped.gone c' hin
            · rw [List.mem_singleton.mp hin, hsame]
              exact hboth.dropped.gone c hc
      · have hboth := h.trans hone
        rw [List.append_nil] at hboth
        dsimp only at hret
        split at hret
        · obtain rfl := pure_inv hret
          exact h
        · exact absurd rfl (hno _)
        · obtain rfl := pure_inv hret
          exact hboth

theorem cancelSpotMarkets (hs : s.Desk) (h : cancelSpotMarkets sender ms s = .ok (os, s')) :
    Cancelling sender (os.filterMap (·.clientOrderId)) s s' := by
  induction ms generalizing s s' os with
  | nil =>
    obtain ⟨rfl, rfl⟩ := pair_inv h
    exact refl hs
  | cons m ms ih =>
    unfold AppState.cancelSpotMarkets at h
    split at h
    · obtain ⟨rfl, rfl⟩ := pair_inv h
      exact refl hs
    · rename_i e he
      obtain ⟨⟨canceled, e'⟩, h1, h⟩ := bind_inv h
      obtain ⟨⟨rest, s₁⟩, h2, h⟩ := bind_inv h
      obtain ⟨rfl, rfl⟩ := pair_inv h
      obtain ⟨htidy, -, hdropped⟩ := SpotEngineState.cancelOrders_tags (hs.spot_tidy he).1 h1
      have hone := setSpot hs he htidy hdropped
      rw [List.filterMap_append]
      exact hone.trans (ih hone.desk h2)

theorem cancelPerpMarkets (ms : List MarketId) (hs : s.Desk) :
    Cancelling sender ((cancelPerpMarkets sender ms s).1.filterMap (·.clientOrderId)) s
      (cancelPerpMarkets sender ms s).2 := by
  induction ms generalizing s with
  | nil => exact refl hs
  | cons m ms ih =>
    unfold AppState.cancelPerpMarkets
    split
    · exact refl hs
    · rename_i e he
      obtain ⟨os, e', hcall, htidy, -, hdropped⟩ :=
        Engine.cancelAllOrders_tags (hs.perp_tidy he).1 sender m
      have hone := setPerp hs he htidy hdropped
      rw [hcall]
      show Cancelling sender
        ((os ++ (AppState.cancelPerpMarkets sender ms (s.setPerp e')).1).filterMap _) s _
      rw [List.filterMap_append]
      exact hone.trans (ih hone.desk)

/-- Where there is nothing to forget, forgetting does no harm. -/
theorem cancelSpotMarkets_untagged (hs : s.Desk) (hnone : NoneTagged s sender ms)
    (h : AppState.cancelSpotMarkets sender ms s = .ok (os, s')) :
    os.filterMap (·.clientOrderId) = [] := by
  induction ms generalizing s s' os with
  | nil =>
    obtain ⟨rfl, -⟩ := pair_inv h
    rfl
  | cons m ms ih =>
    unfold AppState.cancelSpotMarkets at h
    split at h
    · obtain ⟨rfl, -⟩ := pair_inv h
      rfl
    · rename_i e he
      obtain ⟨⟨canceled, e'⟩, h1, h⟩ := bind_inv h
      obtain ⟨⟨rest, s₁⟩, h2, h⟩ := bind_inv h
      obtain ⟨rfl, rfl⟩ := pair_inv h
      obtain ⟨htidy, e₀, he₀, hbook, -⟩ := hs.spot_tidy he
      obtain ⟨htidy', -, hdropped⟩ := SpotEngineState.cancelOrders_tags htidy h1
      have htag : ∀ k i, (s.spotBook k i).bind (·.tag) = e.bookTag k i := by
        intro k i
        unfold SpotEngineState.bookTag
        rw [spotBook_of_eq he₀, hbook]
      have hfirst := SpotEngineState.cancelOrders_untagged htidy
        (fun i c hc => hnone m (.head _) i c ((htag m i).trans hc)) h1
      rw [hfirst] at hdropped
      rw [List.filterMap_append, hfirst, List.nil_append]
      refine ih (hs.setSpot htidy') (fun k hk i c hc => ?_) h2
      rcases hdropped.tag k i with hsame | ⟨-, c', hin, -⟩
      · exact hnone k (.tail _ hk) i c ((htag k i).trans (hsame.symm.trans hc))
      · cases hin

end Cancelling

/-! ### Transactions -/

/-- What an action must avoid. -/
def ActionFollows (s : AppState) (sender : AccountAddress) (t : Timestamp) :
    TransactionType → Prop
  | .order orders | .spotOrder orders => OrdersFollow sender t orders ⟨s, [], [], []⟩
  | .spotCancelAll market => NoneTagged s sender (match market with
    | some marketId => [marketId]
    | none => s.spotMarketIds)
  | _ => True

namespace Settled

variable {t : Timestamp} {r : Except AppError (List Event)}

theorem executeOrders (hs : s.Settled) {orders : List OrderWire}
    (hcond : OrdersFollow sender t orders ⟨s, [], [], []⟩)
    (h : s.executeOrders sender orders t = .ok (r, s')) : s'.Settled :=
  hs.runOrders (b := ⟨s, [], [], []⟩) (.of_quiet (.refl hs.desk)) hcond h

theorem executeCancels (hs : s.Settled) {cancels : List CancelWire}
    (h : s.executeCancels sender cancels = .ok (r, s')) : s'.Settled := by
  obtain ⟨b, hb, h⟩ := bind_inv h
  obtain ⟨-, rfl⟩ := pair_inv h
  refine Cancelling.settled ?_ hs
  exact foldlM_induction (P := fun b : CancelBatch => Cancelling sender b.cloidsToRemove s b.app)
    hb (.refl hs.desk) fun cancel _ b b' hbefore hstep => hbefore.batchCancel hstep

theorem executeCancelByCloid (hs : s.Settled) {cancels : List CancelByCloidWire}
    (h : s.executeCancelByCloid sender cancels = .ok (r, s')) : s'.Settled := by
  obtain ⟨b, hb, h⟩ := bind_inv h
  obtain ⟨-, rfl⟩ := pair_inv h
  refine Cancelling.settled ?_ hs
  exact foldlM_induction (P := fun b : CancelBatch => Cancelling sender b.cloidsToRemove s b.app)
    hb (.refl hs.desk) fun cancel _ b b' hbefore hstep => hbefore.batchCancelByCloid hs hstep

theorem executeCancelAll (hs : s.Settled) (h : s.executeCancelAll sender = .ok (r, s')) :
    s'.Settled := by
  obtain ⟨⟨spotCanceled, s₁⟩, h1, h⟩ := bind_inv h
  obtain ⟨-, rfl⟩ := pair_inv h
  have hspot := Cancelling.cancelSpotMarkets hs.desk h1
  have hboth := hspot.trans (Cancelling.cancelPerpMarkets s₁.perpMarketIds hspot.desk)
  rw [← List.filterMap_append] at hboth
  exact hboth.settled hs

theorem executeSpotCancelAll (hs : s.Settled) {market : Option MarketId}
    (hcond : s.ActionFollows sender t (.spotCancelAll market))
    (h : s.executeSpotCancelAll sender market = .ok (r, s')) : s'.Settled := by
  obtain ⟨⟨canceled, s₁⟩, h1, h⟩ := bind_inv h
  obtain ⟨-, rfl⟩ := pair_inv h
  have hcancelled := Cancelling.cancelSpotMarkets hs.desk h1
  rw [Cancelling.cancelSpotMarkets_untagged hs.desk hcond h1] at hcancelled
  exact hcancelled.settled_nil hs

/-- **Actions.** -/
theorem executeAction (hs : s.Settled) {action : TransactionType}
    (hcond : s.ActionFollows sender t action)
    (h : s.executeAction sender t action = .ok (r, s')) : s'.Settled := by
  have hmoves : Run.Reaches (applyEffect sender) Quiet.MovesBalance s s' → s'.Settled :=
    fun hrun => (Quiet.of_moves hs.desk hrun).settled hs
  cases action with
  | order orders => exact hs.executeOrders hcond h
  | spotOrder orders => exact hs.executeOrders hcond h
  | cancel cancels => exact hs.executeCancels h
  | cancelByCloid cancels => exact hs.executeCancelByCloid h
  | cancelAll => exact hs.executeCancelAll h
  | spotCancelAll market => exact hs.executeSpotCancelAll hcond h
  | updateLeverage asset leverage => exact (Quiet.executeUpdateLeverage hs.desk h).settled hs
  | usdTransfer d amount => exact hmoves (executeUsdTransfer_reaches (fun _ _ => trivial) h)
  | withdraw d amount => exact hmoves (executeWithdraw_reaches (fun _ _ => trivial) h)
  | viewTransfer token amount toEvm =>
    exact hmoves (executeViewTransfer_reaches (fun _ _ _ _ => trivial) h)
  | evmAction actionType data =>
    refine hmoves (executeEvmAction_reaches (fun effect he => ?_) h)
    unfold evmEffect at he
    split at he
    · obtain ⟨amount, -, he⟩ := bind_inv he
      split at he
      · obtain rfl := Option.some.inj (pure_inv he)
        trivial
      · split at he
        · obtain rfl := Option.some.inj (pure_inv he)
          trivial
        · cases pure_inv he
    · cases pure_inv he
  | setMarginMode mode =>
    obtain ⟨-, rfl⟩ := Prod.ext_iff.mp (pure_inv h)
    exact (Quiet.executeSetMarginMode hs.desk sender mode).settled hs
  | cancelTrigger asset orderId =>
    obtain ⟨-, rfl⟩ := Prod.ext_iff.mp (pure_inv h)
    exact (Quiet.executeCancelTrigger hs.desk sender orderId).settled hs

end Settled

/-- What an operation must avoid, when its transaction gets to be executed. -/
def OpFollows (s : AppState) : AppOp → Prop
  | .tx tx t => ∀ a, tx.signer = some a → s.validateNonce a tx.nonce t = true →
    s.ActionFollows a t tx.action
  | _ => True

/-- **Step.** -/
theorem Settled.step (hs : s.Settled) {op : AppOp} (hcond : s.OpFollows op)
    (h : step op s = .ok s') : s'.Settled := by
  cases op with
  | tx tx t =>
    obtain ⟨⟨r, s₁⟩, h1, h⟩ := bind_inv h
    obtain rfl := pure_inv h
    rcases executeTx_cases h1 with ⟨rfl, -⟩ | ⟨a, ra, s₂, hsigner, hnonce, hact, hend⟩
    · exact hs
    · have hs₂ := hs.executeAction (hcond a hsigner hnonce) hact
      rcases hend with ⟨e, -, -, rfl⟩ | ⟨events, s₃, -, -, hinc, rfl⟩
      · exact hs₂
      · obtain ⟨next, -, hinc⟩ := bind_inv hinc
        obtain rfl := pure_inv hinc
        refine Quiet.settled ?_ hs₂
        unfold updateTimestampNonce
        split <;> exact .of_same hs₂.desk rfl rfl rfl rfl
  | beginBlock k t =>
    obtain rfl := pure_inv h
    exact Quiet.settled (.of_same hs.desk rfl rfl rfl rfl) hs
  | endBlock ord => exact (Quiet.finishBlock hs.desk h).settled hs

/-! ### Genesis and restores -/

/-- A perp engine with markets below 128 and no orders. -/
structure BlankEngine (e : Engine) : Prop where
  fresh : Engine.Fresh e
  record : ∀ m i, e.state.getOrder m i = none
  venue : ∀ m : MarketId, (e.state.orderbooks[m]?).isSome →
    m < 128 ∧ (e.matching.orderbooks[m]?).isSome

theorem BlankEngine.book {e : Engine} (h : BlankEngine e) (m : MarketId) (i : OrderId) :
    e.state.bookGet m i = none := (h.fresh.stores.agree m i).symm.trans (h.record m i)

theorem BlankEngine.tidy {e : Engine} (h : BlankEngine e) : e.Tidy where
  books := h.fresh.stores.books
  records := h.fresh.stores.records
  filed := h.fresh.filed.1
  tags := by
    funext m i
    rw [EngineState.recordTag, EngineState.bookTag, h.fresh.stores.agree]
  fresh m i _ := h.book m i
  venue := h.venue

theorem BlankEngine.addMarket {e e' : Engine} {config : MarketConfig} {price : Decimal}
    {t : Timestamp} (h : BlankEngine e) (hid : config.id < 128)
    (hret : e.addMarket config price t = .ok e') : BlankEngine e' := by
  have hfresh : Engine.Fresh e' := .addMarket config price t h.fresh hret
  obtain ⟨n, -, hret⟩ := bind_inv hret
  obtain ⟨n', -, hret⟩ := bind_inv hret
  obtain rfl := pure_inv hret
  refine ⟨hfresh, fun m i => ?_, fun m hm => ?_⟩
  · simp only [EngineState.addMarket, EngineState.getOrder, FinMap.get_insert]
    split
    · simp
    · exact h.record m i
  · simp only [EngineState.addMarket, MatchingEngine.addOrderbook, FinMap.get_insert] at hm ⊢
    split
    · rename_i hk
      exact ⟨hk ▸ hid, rfl⟩
    · rename_i hk
      rw [if_neg (show ¬ (Market.new config price n').id = m from hk)] at hm
      exact h.venue m hm

theorem genesisPerp_blank {v : UnifiedState} {e : Engine} (h : genesisPerp v = .ok e) :
    BlankEngine e := by
  obtain ⟨e₁, h1, h⟩ := bind_inv h
  have hnew : BlankEngine (.withUnifiedState .default v) := by
    refine ⟨.withUnifiedState _ _, fun m i => ?_, fun m hm => ?_⟩
    · simp [Engine.withUnifiedState, Engine.new, EngineState.new, EngineState.getOrder]
    · simp [Engine.withUnifiedState, Engine.new, EngineState.new] at hm
  exact (hnew.addMarket (by decide) h1).addMarket (by decide) h

/-- A node starts without orders and with empty maps. -/
theorem Settled.genesis {g : GenesisState} (h : AppState.genesis g = .ok s) : s.Settled := by
  obtain ⟨spot, hspot, h⟩ := bind_inv h
  obtain ⟨v, -, h⟩ := bind_inv h
  obtain ⟨perp, hperp, h⟩ := bind_inv h
  obtain rfl := pure_inv h
  have hblank := genesisPerp_blank hperp
  have hspotBlank : spot.Blank :=
    foldlM_induction (P := SpotEngineState.Blank) hspot (SpotEngineState.blank_withUnifiedState _)
      fun params _ e e' he hstep => by
        obtain ⟨⟨r, e₁⟩, hdeploy, hstep⟩ := bind_inv hstep
        obtain rfl := pure_inv hstep
        exact he.deployToken hdeploy
  have htag : ∀ m i, restingTag { new with
      unifiedState := v
      perpEngine := some perp
      spotEngine := some spot } m i = none := by
    intro m i
    by_cases hm : 128 ≤ m
    · rw [restingTag_spot rfl hm]
      exact hspotBlank.bookTag m i
    · rw [restingTag_perp rfl hm]
      unfold EngineState.bookTag
      rw [hblank.book]
      rfl
  refine ⟨⟨⟨perp, rfl, hblank.tidy⟩, spot, rfl, hspotBlank.tidy⟩, fun m i => ?_,
    .of_empty (fun k => htag k.1 k.2) fun p => ?_⟩
  · rw [htag]
    exact FinMap.get_empty _
  · exact FinMap.get_empty _

/-- **Restore.** The maps of the branch are put together from both sides: the ids from the
snapshot, the reverse map and the perp engine from the abandoned branch. They fit when the
ids are the same on both sides. -/
theorem Settled.restore {t : AppState} (hs : s.Settled) (ht : t.Settled) (hserved : s.Served)
    (htserved : t.Served) (hsame : s.cloidToOid = t.cloidToOid) {ord ord' : HashOrder}
    (h : t.restore ord' (s.snapshot ord) = .ok s') : s'.Settled := by
  obtain ⟨e, he, htidy⟩ := hs.desk.spot
  obtain ⟨d, hd, htidy'⟩ := ht.desk.perp
  obtain ⟨orderbooks, v, hrestore, hdomain, hbooks⟩ :=
    restore_snapshot hserved htserved he ord ord'
  obtain rfl := ok_unique hrestore h
  obtain ⟨e₁, he₁, hhoused⟩ := hserved.spot
  obtain rfl := Option.some.inj (he.symm.trans he₁)
  obtain ⟨hrestored, hbookTag⟩ := htidy.restored hhoused v hdomain fun m b hb =>
    (hbooks m b hb).1
  -- the same ids stand for the same orders
  have htags : s.restingTag = t.restingTag := by
    funext m i
    refine Option.ext fun p => ?_
    rw [← hs.tracks.found, ← ht.tracks.found]
    unfold getOrderByCloid
    rw [hsame]
  refine ⟨⟨⟨d, hd, htidy'⟩, _, rfl, hrestored⟩,
    Tracks.congr (T := t.restingTag) (ht.tracks.of_maps ?_ ?_) ?_⟩
  · exact hsame
  · rfl
  funext m i
  by_cases hm : 128 ≤ m
  · rw [← htags, restingTag_spot he hm, restingTag_spot rfl hm, hbookTag]
  · unfold restingTag
    rw [if_neg hm, if_neg hm]
    rfl

/-! ### Runs -/

/-- The states of a node's application, along runs whose operations and restores all keep the
client order ids. -/
inductive FollowedVisit : AppState → Prop
  | genesis {g : GenesisState} {s : AppState} (nonneg : g.Nonneg)
      (start : AppState.genesis g = .ok s) : FollowedVisit s
  | step {s s' : AppState} (op : AppOp) (before : FollowedVisit s) (follows : s.OpFollows op)
      (run : step op s = .ok s') : FollowedVisit s'
  | evm {s : AppState} (root : Option Nat) (before : FollowedVisit s) :
      FollowedVisit { s with evmRoot := root }
  | restore {s t r : AppState} (ord ord' : HashOrder) (taken : FollowedVisit s)
      (before : FollowedVisit t) (same : s.cloidToOid = t.cloidToOid)
      (run : t.restore ord' (s.snapshot ord) = .ok r) : FollowedVisit r

theorem FollowedVisit.visited (h : FollowedVisit s) : Visited s := by
  induction h with
  | genesis nonneg start => exact .genesis nonneg start
  | step op _ _ run ih => exact .step op ih run
  | evm root _ ih => exact .evm root ih
  | restore ord ord' _ _ _ run ihs iht => exact .restore ord ord' ihs iht run

theorem FollowedVisit.settled (h : FollowedVisit s) : s.Settled := by
  induction h with
  | genesis _ start => exact .genesis start
  | step op _ follows run ih => exact ih.step follows run
  | evm root _ ih => exact Quiet.settled (.of_same ih.desk rfl rfl rfl rfl) ih
  | restore ord ord' taken before same run ihs iht =>
    exact ihs.restore iht taken.visited.served before.visited.served same run

/-- The maps are inverse to each other, and the orders they stand for are the resting orders
that were placed with a client order id, each under its owner. -/
structure CloidsInverse (s : AppState) : Prop where
  inverse : ∀ a c m i, s.cloidToOid[(⟨a, c⟩ : PairKey AccountAddress ClientOrderId)]? =
      some (m, i) ↔
    s.oidToCloid[(⟨m, i⟩ : PairKey MarketId OrderId)]? = some (a, c)
  resting : ∀ a c m i, s.oidToCloid[(⟨m, i⟩ : PairKey MarketId OrderId)]? = some (a, c) ↔
    ∃ o, (s.perpBook m i = some o ∨ s.spotBook m i = some o) ∧ o.owner = a ∧
      o.clientOrderId = some c

theorem Settled.cloidsInverse (hs : s.Settled) : s.CloidsInverse where
  inverse a c m i := by
    rw [hs.tracks.tag]
    exact hs.tracks.found
  resting a c m i := by
    rw [hs.tracks.tag]
    unfold restingTag
    rw [Option.bind_eq_some_iff]
    refine exists_congr fun o => and_congr hs.desk.rests_iff.symm ?_
    unfold Order.tag
    rw [Option.map_eq_some_iff]
    constructor
    · rintro ⟨c', hc, hpair⟩
      obtain ⟨howner, rfl⟩ := Prod.mk.inj hpair
      exact ⟨howner, hc⟩
    · rintro ⟨rfl, hc⟩
      exact ⟨c, hc, rfl⟩

/-- **Client order ids.** Along every run that keeps them, the maps are inverse to each other and
have exactly the resting orders with a client order id. `Settled` is the invariant: the maps are
those of the tags of the resting orders, as every transaction pays what it owes them. -/
theorem cloids_inverse (h : FollowedVisit s) : s.CloidsInverse := h.settled.cloidsInverse

/-- An order for 0.001 BTC at 50000, with a client order id or without. -/
def cloidWire (isBuy : Bool) (tif : String) (cloid : Option ClientOrderId) : OrderWire where
  a := 0
  b := isBuy
  p := "50000"
  s := "0.001"
  r := false
  t := .limit tif
  c := cloid

def cloidTx (signer : AccountAddress) (nonce : Nat) (wire : OrderWire) : Transaction where
  action := .order [wire]
  nonce := nonce
  signer := some signer

/-- What the maps have for the client order id `x` of account 1 and for BTC order 1, and
whether that order rests. -/
structure CloidView where
  found : Option (MarketId × OrderId)
  tag : Option (AccountAddress × ClientOrderId)
  rests : Bool
  deriving DecidableEq

def cloidView (s : AppState) : CloidView where
  found := s.getOrderByCloid 1 "x"
  tag := s.oidToCloid[(⟨0, 1⟩ : PairKey MarketId OrderId)]?
  rests := (s.perpBook 0 1).isSome || (s.spotBook 0 1).isSome

theorem FollowedVisit.order (h : FollowedVisit s) {signer : AccountAddress} {nonce : Nat}
    (hcond : OrdersFollow signer 1000 [wire] ⟨s, [], [], []⟩)
    (hrun : AppState.step (.tx (cloidTx signer nonce wire) 1000) s = .ok u) :
    FollowedVisit u := by
  have hfollows : s.OpFollows (.tx (cloidTx signer nonce wire) 1000) := by
    intro a ha _
    obtain rfl := Option.some.inj ha
    exact hcond
  exact h.step _ hfollows hrun

/-- An order with a client order id rests, and another one fills it. -/
theorem cloids_inverse_filled : ∃ s u : AppState, FollowedVisit s ∧ FollowedVisit u ∧
    s.cloidView = ⟨some (0, 1), some (1, "x"), true⟩ ∧
    u.cloidView = ⟨none, none, false⟩ ∧ s.CloidsInverse ∧ u.CloidsInverse := by
  obtain ⟨s₀, h0, htest⟩ := exists_of_test
    (x := genesis (usdcGenesis [(1, 1000000000), (2, 1000000000)]))
    (p := fun s₀ =>
      decide (OrdersFollow 1 1000 [cloidWire true "Gtc" (some "x")] ⟨s₀, [], [], []⟩) &&
      decide ((do
        let s ← step (.tx (cloidTx 1 0 (cloidWire true "Gtc" (some "x"))) 1000) s₀
        let u ← step (.tx (cloidTx 2 0 (cloidWire false "Ioc" none)) 1000) s
        return (decide (OrdersFollow 2 1000 [cloidWire false "Ioc" none] ⟨s, [], [], []⟩),
          s.cloidView, u.cloidView) : Exec (Bool × CloidView × CloidView)) =
        .ok (true, ⟨some (0, 1), some (1, "x"), true⟩, ⟨none, none, false⟩)))
    (by decide +kernel)
  simp only [Bool.and_eq_true, decide_eq_true_eq] at htest
  obtain ⟨hfirst, hrun⟩ := htest
  obtain ⟨s, hs, hrun⟩ := bind_inv hrun
  obtain ⟨u, hu, hrun⟩ := bind_inv hrun
  obtain ⟨hsecond, hviews⟩ := pair_inv hrun
  obtain ⟨hview, hview'⟩ := Prod.mk.inj hviews
  have hvisit : FollowedVisit s :=
    (FollowedVisit.genesis (usdcGenesis_nonneg _) h0).order hfirst hs
  have hvisit' : FollowedVisit u := hvisit.order (of_decide_eq_true hsecond) hu
  exact ⟨s, u, hvisit, hvisit', hview, hview', cloids_inverse hvisit, cloids_inverse hvisit'⟩

/-- An order with a client order id is taken off the book by another one of its owner. -/
theorem cloid_outlives_order : ¬ ∀ s, Visited s → s.CloidsInverse := by
  intro h
  obtain ⟨s, hrun, htest⟩ := exists_of_test
    (x := nodeRun (usdcGenesis [(1, 1000000000)])
      [.tx (cloidTx 1 0 (cloidWire true "Gtc" (some "x"))) 1000,
        .tx (cloidTx 1 1 (cloidWire false "Ioc" none)) 1000])
    (p := fun s => decide (s.cloidView = ⟨some (0, 1), some (1, "x"), false⟩))
    (by decide +kernel)
  have hview := of_decide_eq_true htest
  have htag : s.oidToCloid[(⟨0, 1⟩ : PairKey MarketId OrderId)]? = some (1, "x") :=
    congrArg CloidView.tag hview
  have hrests : ((s.perpBook 0 1).isSome || (s.spotBook 0 1).isSome) = false :=
    congrArg CloidView.rests hview
  have hinverse := h s (nodeRun_reachable (usdcGenesis_nonneg _) hrun).visited
  obtain ⟨o, ho | ho, -⟩ := (hinverse.resting 1 "x" 0 1).mp htag
  · simp [ho] at hrests
  · simp [ho] at hrests

end AppState

end Hypercore
