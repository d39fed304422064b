import Hypercore.Engine.Books
/-!
# Hypercore.Engine.Holders

Makers have positions.

A fill writes the positions of its two parties only where they exist. The taker's is
created when its order is checked; that the owner of every resting order has one is an
invariant (`Reachable.bookHolders`), which matching keeps because the orders it leaves are
orders it found (`processOrder_all`) and because no position is ever taken away
(`PosWrites.held`).
-/

namespace Hypercore

open Exec Int128

namespace Engine

open EngineState

/-- Every position that was there is there. -/
def Held (s s' : EngineState) : Prop :=
  ∀ a m, (s.getPosition a m).isSome → (s'.getPosition a m).isSome

theorem Held.of_same {s s' : EngineState} (h : s'.positions = s.positions) : Held s s' := by
  intro a m hp
  unfold getPosition at hp ⊢
  rwa [h]

theorem PosWrite.held {s s' : EngineState} (h : PosWrite s s') : Held s s' := by
  have hset : ∀ {a m p}, s'.positions = (s.setPosition a m p).positions → Held s s' := by
    intro a m p heq b k hp
    have hget : s'.getPosition b k = (s.setPosition a m p).getPosition b k := by
      unfold getPosition
      rw [heq]
    rw [hget, getPosition_setPosition]
    split
    · rfl
    · exact hp
  cases h with
  | same heq => exact .of_same heq
  | opened a m _ heq => exact hset heq
  | filled a m p p' f price isBuy _ _ _ heq => exact hset heq
  | funded a m p p' acc payment _ _ heq => exact hset heq

theorem PosWrites.held {s s' : EngineState} (h : PosWrites s s') : Held s s' := by
  induction h with
  | refl => exact fun _ _ hp => hp
  | tail _ hw ih => exact fun a m hp => hw.held a m (ih a m hp)

/-- The owner of every resting order has a position in its market. -/
def BookHolders (s : EngineState) : Prop :=
  ∀ (m : MarketId) (b : OrderBook), s.orderbooks[m]? = some b →
    b.AllOrders fun o => (s.getPosition o.owner m).isSome

section Books

variable {s s' : EngineState}

theorem BookHolders.of_held (hs : BookHolders s) (h : Held s s')
    (hb : s'.orderbooks = s.orderbooks) : BookHolders s' := by
  intro m b hm
  rw [hb] at hm
  exact (hs m b hm).imp fun o ho => h _ _ ho

theorem BookHolders.removeOrder (hs : BookHolders s) (m : MarketId) (id : OrderId) :
    BookHolders (s.removeOrder m id).2 := by
  obtain ⟨_, _, _, honly⟩ := removeOrder_only s m id
  have hbooks : (s.maps.removeOrder m id).BooksMeet _ :=
    OrderMaps.BooksMeet.removeOrder (s := s.maps) hs fun b hb => hb.remove id
  rw [← maps_removeOrder, honly] at hbooks
  rw [honly]
  exact hbooks

/-- The passes write no books. -/
theorem BookHolders.of_upkept {e e' : Engine} (hs : BookHolders e.state) (h : Upkept e e')
    (hw : PosWrites e.state e'.state) : BookHolders e'.state := by
  obtain ⟨_, _, _, _, _, _, _, _, _, heq⟩ := h.state
  exact hs.of_held hw.held (by rw [heq])

theorem BookHolders.of_triggers (hs : BookHolders s) (h : TriggersOnly s s') :
    BookHolders s' := by
  obtain ⟨_, _, _, rfl⟩ := h
  exact hs.of_held (.of_same rfl) rfl

end Books

section Operations

variable {e e' : Engine}

theorem openAccount_orderbooks (e : Engine) (a : AccountAddress) (m : MarketId) :
    (e.openAccount a m).state.orderbooks = e.state.orderbooks := by
  obtain ⟨_, _, h⟩ := openAccount_only e a m
  rw [h]

/-- Matching finds makers that have positions and leaves only such makers. -/
theorem executeOrder_holders {market : Market} {order : Order}
    {r : Except Error (Order × List Fill)} (hs : BookHolders e.state)
    (hpos : (e.state.getPosition order.owner order.marketId).isSome)
    (h : e.executeOrder market order = .ok (r, e')) : BookHolders e'.state := by
  have hrule : BookRule fun m b => b.AllOrders fun o => (e.state.getPosition o.owner m).isSome :=
    .orders fun ho hfill => by rwa [(Order.fill_eq_ok hfill).1]
  have hbooks := executeOrder_books hrule
    (fun updated hfrom _ b b' hb hins => hb.insert (by rw [hfrom.1]; exact hpos) hins) hs h
  exact hbooks.imp fun m b hb => hb.imp fun o ho => (executeOrder_posWrites h).held _ _ ho

/-- **Submission.** -/
theorem submitOrder_holders {a : AccountAddress} {q : OrderRequest} {t : Timestamp}
    {r : Except Error (Order × List Fill)} (hs : BookHolders e.state)
    (h : e.submitOrder a q t = .ok (r, e')) : BookHolders e'.state := by
  have hopen : BookHolders (e.openAccount a q.marketId).state :=
    hs.of_held (openAccount_posWrites e a q.marketId).held
      (openAccount_orderbooks e a q.marketId)
  have henter : BookHolders (e.enter a q.marketId).state := hopen.of_held (.of_same rfl) rfl
  exact submitOrder_rule (P := fun e => BookHolders e.state) hs hopen
    (fun _ ht => henter.of_triggers ht)
    (fun _ _ hexec => executeOrder_holders henter (enter_position e a q.marketId) hexec) h

/-- **Step lemma.** -/
theorem step_holders {op : Op} (hwf : PositionsWF e.state) (hs : BookHolders e.state)
    (h : step op e = .ok e') : BookHolders e'.state := by
  have hmeets := submitsMeet_of_forall (G := fun _ _ _ => True) (fun _ _ _ => trivial) e op
  refine step_rule (fun _ m id hs => hs.removeOrder m id) hs hmeets ?_ ?_ ?_ ?_ ?_ h
  · exact fun _ _ _ _ _ _ hs _ h => submitOrder_holders hs h
  · exact fun _ _ hs ht => hs.of_triggers ht
  · exact fun _ _ _ => hs.of_held (.of_same rfl) rfl
  · exact fun _ _ _ h => hs.of_upkept (processFunding_only h) (processFunding_posWrites h)
  · exact fun _ _ _ _ h =>
      hs.of_upkept (processLiquidations_only h) (processLiquidations_posWrites hwf h)

/-- The books of a fresh engine are empty. -/
theorem Fresh.no_orders (h : Fresh e) : ∀ (m : MarketId) (b : OrderBook),
    e.state.orderbooks[m]? = some b → b.AllOrders fun _ => False := by
  refine h.rule (P := fun s => ∀ (m : MarketId) (b : OrderBook), s.orderbooks[m]? = some b →
    b.AllOrders fun _ => False) (fun m b hb => ?_) fun s config price t ih m b hb => ?_
  · simp [EngineState.new] at hb
  · simp only [EngineState.addMarket, FinMap.get_insert] at hb
    split at hb
    · obtain rfl := Option.some.inj hb
      exact OrderBook.AllOrders.new
    · exact ih m b hb

/-- **Run lemma.** In a reachable engine the owner of every resting order has a position. -/
theorem Reachable.bookHolders (h : Reachable e) : BookHolders e.state := by
  have hboth : PositionsWF e.state ∧ BookHolders e.state := by
    refine h.induction (P := fun e => PositionsWF e.state ∧ BookHolders e.state)
      (fun e hf => ⟨fun a m p hp => ?_, fun m b hb => ?_⟩)
      fun _ _ _ hs _ hstep => ⟨(step_posWrites hs.1 hstep).wf hs.1, step_holders hs.1 hs.2 hstep⟩
    · unfold getPosition at hp
      rw [hf.no_positions] at hp
      simp at hp
    · exact (hf.no_orders m b hb).imp fun _ hfalse => hfalse.elim
  exact hboth.2

end Operations

end Engine

end Hypercore
