import Hypercore.Engine.Acts
import Hypercore.Engine.OrderMaps
import Hypercore.Engine.Stores
/-!
# Hypercore.Engine.Filing

Where a reachable engine keeps its records, books and positions.

The three places that record resting orders may disagree about *which* orders rest
(self-trade prevention takes an order off its book only), but never about *where* an
order belongs: a record is kept under its own market and id and has a key, the price
caches of a book are right, and a market has a book and an orders map. `Filed` holds
along every run (`Reachable.filed`), whatever the submissions.
-/

namespace Hypercore

open Exec Int128

/-! ### Matching keeps the price caches -/

namespace MatchingEngine

theorem matchAgainst_caches {s : OrderSide} {noCross : Decimal → Decimal → Bool} {fuel : Nat}
    {order order' : Order} {book book' : OrderBook} {fills fills' : List Fill}
    (hb : book.CachesRight)
    (h : matchAgainst s noCross fuel order book fills = .ok (order', book', fills')) :
    book'.CachesRight := by
  refine matchAgainst_induction (P := fun _ b _ => b.CachesRight) hb
    (fun _ _ _ _ _ hb => hb.remove _) ?_ h
  intro _ _ b b₁ _ best _ _ _ hb₁ hb
  rcases fillResting_cases hb₁ with rfl | hb₁
  · exact hb.remove _
  · exact hb.modify (fun _ _ hf => (Order.fill_samePlace hf).2.2.1) hb₁

theorem processOrder_caches {order : Order} {book book' : OrderBook}
    {r : Except Error (Order × List Fill)} (hb : book.CachesRight)
    (h : processOrder order book = .ok (r, book')) : book'.CachesRight := by
  obtain ⟨order₁, book₁, fills₁, r₁, hmatch, hun, -⟩ := processOrder_cases h
  have hb₁ := matchAgainst_caches hb hmatch
  rcases handleUnfilled_cases hun with
    ⟨-, -, rfl⟩ | ⟨-, -, rfl, -⟩ | ⟨-, -, -, hins⟩ | ⟨-, -, -, rfl⟩
  · exact hb₁
  · exact hb₁
  · exact hb₁.insert hins
  · exact hb₁

end MatchingEngine

/-! ### The filing of the engine -/

open OrderMaps (FilingKept)

namespace EngineState

/-- The orders maps and the books. -/
def maps (s : EngineState) : OrderMaps := ⟨s.orders, s.orderbooks⟩

abbrev Filed (s : EngineState) : Prop := s.maps.Filed

section Maps

variable {s s' : EngineState}

theorem maps_orders (s : EngineState) : s.maps.orders = s.orders := rfl

theorem maps_orderbooks (s : EngineState) : s.maps.orderbooks = s.orderbooks := rfl

theorem maps_getOrder (s : EngineState) (m : MarketId) (id : OrderId) :
    s.maps.getOrder m id = s.getOrder m id := rfl

theorem maps_removeOrder (s : EngineState) (m : MarketId) (id : OrderId) :
    (s.removeOrder m id).2.maps = s.maps.removeOrder m id := by
  have herase : ∀ s : EngineState, (s.eraseRecord m id).maps = s.maps.eraseRecord m id := by
    intro s
    unfold EngineState.eraseRecord OrderMaps.eraseRecord
    rw [maps_orders]
    cases s.orders[m]? <;> rfl
  have hbook : ∀ s : EngineState, (s.removeFromBook m id).maps = s.maps.removeFromBook m id := by
    intro s
    unfold EngineState.removeFromBook OrderMaps.removeFromBook
    rw [maps_orderbooks]
    cases s.orderbooks[m]? <;> rfl
  have hindex : ∀ (s : EngineState) a, (s.removeFromIndex a m id).maps = s.maps := by
    intro s a
    unfold removeFromIndex
    split <;> rfl
  unfold EngineState.removeOrder OrderMaps.removeOrder
  rw [maps_getOrder]
  cases s.getOrder m id with
  | none => rfl
  | some o =>
    dsimp only
    rw [hindex, hbook, herase]

theorem maps_updateOrderRemaining (s : EngineState) (m : MarketId) (id : OrderId) (r : Decimal) :
    (s.updateOrderRemaining m id r).maps = s.maps.restateRecord m id r := by
  unfold EngineState.updateOrderRemaining OrderMaps.restateRecord
  rw [maps_orders]
  cases s.orders[m]? with
  | none => rfl
  | some os =>
    dsimp only
    cases os[id]? <;> rfl

theorem maps_addOrder {o : Order} (h : s.addOrder o = .ok s') :
    s.maps.addOrder o = .ok s'.maps := by
  obtain ⟨s₁, h1, h⟩ := bind_inv h
  obtain rfl := pure_inv h
  have hput : (s.putRecord o.marketId o).maps = s.maps.putRecord o.marketId o := by
    unfold EngineState.putRecord OrderMaps.putRecord
    rw [maps_orders]
    cases s.orders[o.marketId]? <;> rfl
  unfold OrderMaps.addOrder
  rw [← hput]
  generalize s.putRecord o.marketId o = t at h1 ⊢
  unfold EngineState.insertInBook at h1
  unfold OrderMaps.insertInBook
  rw [maps_orderbooks]
  cases hm : t.orderbooks[o.marketId]? with
  | none =>
    simp only [hm] at h1
    obtain rfl := pure_inv h1
    rfl
  | some b =>
    simp only [hm] at h1
    obtain ⟨b', hb', h1⟩ := bind_inv h1
    obtain rfl := pure_inv h1
    exact bind_eq_ok.mpr ⟨b', hb', rfl⟩

theorem filing_of_same (ho : s'.orders = s.orders) (hb : s'.orderbooks = s.orderbooks) :
    FilingKept s.maps s'.maps := by
  unfold maps
  rw [ho, hb]
  exact .refl _

theorem filing_of_kept (h : OrdersKept s s') : FilingKept s.maps s'.maps :=
  filing_of_same h.orders h.orderbooks

theorem filing_removeOrder (s : EngineState) (m : MarketId) (id : OrderId) :
    FilingKept s.maps (s.removeOrder m id).2.maps := by
  rw [maps_removeOrder]
  exact .removeOrder _ m id

theorem filing_updateOrderRemaining (s : EngineState) (m : MarketId) (id : OrderId)
    (r : Decimal) : FilingKept s.maps (s.updateOrderRemaining m id r).maps := by
  rw [maps_updateOrderRemaining]
  exact .restateRecord _ m id r

theorem filing_addOrder {o : Order} (h : s.addOrder o = .ok s') : FilingKept s.maps s'.maps :=
  .addOrder (maps_addOrder h)

end Maps

end EngineState

namespace Engine

open EngineState

section Operations

variable {e e' : Engine} {a : AccountAddress} {m : MarketId}

theorem syncMakers_filing (s : EngineState) (m : MarketId) (fills : List Fill) :
    FilingKept s.maps (syncMakers s m fills).maps := by
  unfold syncMakers
  split
  · exact .refl _
  · exact (FilingKept.foldl (fun s id => filing_removeOrder s m id) _ s).trans
      (.foldl (fun s (p : OrderId × Decimal) => filing_updateOrderRemaining s m p.1 p.2) _ _)

theorem executeOrder_filing {market : Market} {order : Order}
    {r : Except Error (Order × List Fill)} (h : e.executeOrder market order = .ok (r, e')) :
    FilingKept e.state.maps e'.state.maps := by
  refine executeOrder_rule (P := fun e' => FilingKept e.state.maps e'.state.maps) (.refl _) ?_ h
  intro book r₁ book' hm hproc
  have hbook : FilingKept e.state.maps (e.state.setOrderbook order.marketId book').maps :=
    .setBook hm fun hb => MatchingEngine.processOrder_caches hb hproc
  refine ⟨hbook, fun updated fills fills' e₁ s _ hs hsettle => ?_⟩
  subst hs
  have hfills := (hbook.trans (syncMakers_filing _ updated.marketId fills)).trans
    (filing_of_kept (.of_fill (settleFills_only hsettle).1))
  exact ⟨hfills, fun _ s' hadd => hfills.trans (filing_addOrder hadd)⟩

theorem submitOrder_filing {q : OrderRequest} {t : Timestamp}
    {r : Except Error (Order × List Fill)} (h : e.submitOrder a q t = .ok (r, e')) :
    FilingKept e.state.maps e'.state.maps := by
  have hopen : FilingKept e.state.maps (e.openAccount a q.marketId).state.maps := by
    obtain ⟨_, _, hsame⟩ := openAccount_only e a q.marketId
    rw [hsame]
    exact filing_of_same rfl rfl
  have henter : FilingKept e.state.maps (e.enter a q.marketId).state.maps :=
    hopen.trans (filing_of_same rfl rfl)
  exact submitOrder_rule (P := fun e' => FilingKept e.state.maps e'.state.maps) (.refl _) hopen
    (fun _ ht => henter.trans (filing_of_kept (.of_triggers ht)))
    (fun _ _ hexec => henter.trans (executeOrder_filing hexec)) h

/-- **Step lemma.** Every operation keeps the filing. -/
theorem step_filing {op : Op} (h : step op e = .ok e') : FilingKept e.state.maps e'.state.maps := by
  have hmeets := submitsMeet_of_forall (G := fun _ _ _ => True) (fun _ _ _ => trivial) e op
  refine step_rule (Q := fun s => FilingKept e.state.maps s.maps)
    (fun s m id hw => hw.trans (filing_removeOrder s m id)) (.refl _) hmeets ?_ ?_ ?_ ?_ ?_ h
  · exact fun _ _ _ _ _ _ hw _ h => hw.trans (submitOrder_filing h)
  · exact fun _ _ hw ht => hw.trans (filing_of_kept (.of_triggers ht))
  · exact fun _ _ _ => filing_of_same rfl rfl
  · exact fun _ _ _ h => filing_of_kept (.of_upkeep (processFunding_only h).state)
  · exact fun _ _ _ _ h => filing_of_kept (.of_upkeep (processLiquidations_only h).state)

end Operations

/-! ### Reachable engines -/

theorem Fresh.filed {e : Engine} (h : Fresh e) : e.state.Filed ∧
    ∀ m : MarketId, (e.state.orderbooks[m]?).isSome = (e.state.markets[m]?).isSome := by
  refine h.rule (P := fun s => s.Filed ∧
    ∀ m : MarketId, (s.orderbooks[m]?).isSome = (s.markets[m]?).isSome) ⟨.empty, fun _ => rfl⟩ ?_
  rintro s config price t ⟨hs, hlisted⟩
  refine ⟨hs.addMarket config.id, fun m => ?_⟩
  simp only [EngineState.addMarket, FinMap.get_insert]
  split
  · rfl
  · exact hlisted m

/-- **Run lemma.** Whatever is submitted, records, books and caches stay in their places. -/
theorem Reachable.filed {e : Engine} (h : Reachable e) : e.state.Filed :=
  h.induction (fun _ hf => hf.filed.1) fun _ _ _ hs _ hstep => (step_filing hstep).filed hs

/-- **Run lemma.** The books of a reachable engine are those of its markets. -/
theorem Reachable.listed {e : Engine} (h : Reachable e) (m : MarketId) :
    (e.state.orderbooks[m]?).isSome = (e.state.markets[m]?).isSome := by
  refine h.induction (P := fun e => ∀ m : MarketId,
    (e.state.orderbooks[m]?).isSome = (e.state.markets[m]?).isSome) (fun _ hf => hf.filed.2)
    (fun e op e' hs _ hstep m => ?_) m
  have hconfigs : ConfigsKept e.state e'.state :=
    (step_acts hstep).rel (R := fun e e' => ConfigsKept e.state e'.state)
      (fun _ => .refl _) (fun _ _ _ => .trans) fun _ _ => Act.configs
  have hmarket := congrArg Option.isSome (hconfigs m)
  simp only [Option.isSome_map] at hmarket
  exact ((step_filing hstep).books m).trans ((hs m).trans hmarket.symm)

/-- No account is listed without a position. -/
def PositionsOpen (s : EngineState) : Prop :=
  ∀ (a : AccountAddress) (ps : FinMap MarketId Position), s.positions[a]? = some ps →
    ∃ m p, s.getPosition a m = some p

theorem PosWrites.open {s s' : EngineState} (h : PosWrites s s') (hs : PositionsOpen s) :
    PositionsOpen s' := by
  have hset : ∀ {s t : EngineState} {a : AccountAddress} {m : MarketId} {p : Position},
      PositionsOpen s → t.positions = (s.setPosition a m p).positions → PositionsOpen t := by
    intro s t a m p hs ht b ps hb
    have hget : ∀ c k, t.getPosition c k = (s.setPosition a m p).getPosition c k := by
      intro c k
      unfold getPosition
      rw [ht]
    by_cases hab : a = b
    · exact ⟨m, p, by rw [hget, getPosition_setPosition, if_pos ⟨hab, rfl⟩]⟩
    · have hb' : s.positions[b]? = some ps := by
        rw [ht] at hb
        exact (FinMap.get_insert_ne _ _ hab).symm.trans hb
      obtain ⟨k, q, hq⟩ := hs b ps hb'
      exact ⟨k, q, by rw [hget, getPosition_setPosition, if_neg (fun h => hab h.1), hq]⟩
  induction h with
  | refl => exact hs
  | tail _ hw ih =>
    cases hw with
    | same heq =>
      intro b ps hb
      rw [heq] at hb
      obtain ⟨m, p, hp⟩ := ih b ps hb
      refine ⟨m, p, ?_⟩
      unfold getPosition at hp ⊢
      rw [heq, hp]
    | opened a m _ heq => exact hset ih heq
    | filled a m p p' f price isBuy _ _ _ heq => exact hset ih heq
    | funded a m p p' acc payment _ _ heq => exact hset ih heq

/-- **Run lemma.** -/
theorem Reachable.positionsOpen {e : Engine} (h : Reachable e) : PositionsOpen e.state := by
  obtain ⟨e₀, hf, hr⟩ := h
  refine (hr.invariant (P := fun e => Reachable e ∧ PositionsOpen e.state)
    ⟨⟨e₀, hf, .refl⟩, fun a ps hps => ?_⟩ fun e op e' hs hok hstep => ?_).2
  · rw [hf.no_positions] at hps
    simp at hps
  · obtain ⟨e₁, hf₁, hr₁⟩ := hs.1
    exact ⟨⟨e₁, hf₁, .tail _ hr₁ hok hstep⟩, (step_posWrites hs.1.positionsWF hstep).open hs.2⟩

end Engine

end Hypercore
