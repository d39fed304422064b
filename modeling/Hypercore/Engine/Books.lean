import Hypercore.Engine.Filing
import Hypercore.Engine.Stranded
/-!
# Hypercore.Engine.Books

What the engine keeps of its books.

**Rule.** Matching takes orders off a book and sizes off its orders, and puts the remainder of
the incoming order in; bringing the makers in line takes orders off, and settling puts the
remainder in once more. So an execution keeps every condition on books that removing and
filling keep (`BookRule`), if it allows the remainder in (`executeOrder_books`).

**Standing books.** The next id is new in every book, so the remainder of the order that gets
it has one place there, both times it is put in. Hence the books of a reachable engine are
standing, whatever the prices, and carry ids that were given out (`Reachable.booksStand`).
-/

namespace Hypercore

open Exec Int128 OrderMaps

/-- Removing and filling resting orders keep a condition on the books of markets. -/
structure BookRule (C : MarketId → OrderBook → Prop) : Prop where
  remove : ∀ {m b} (id : OrderId), C m b → C m (b.remove id).2
  fill : ∀ {m b b'} {id : OrderId} {size : Decimal}, C m b →
    b.modify id (·.fill size) = .ok b' → C m b'

/-- The remainder of an order may rest: putting it into a book of its market keeps a
condition. -/
def LetsIn (C : MarketId → OrderBook → Prop) (order : Order) : Prop :=
  ∀ updated, MatchingEngine.FilledFrom order updated → updated.shouldRest = true →
    ∀ b b', C order.marketId b → b.insert updated = .ok b' → C order.marketId b'

/-- A condition on single orders that does not look at sizes. -/
theorem BookRule.orders {P : MarketId → Order → Prop}
    (hP : ∀ {m o o'} {size : Decimal}, P m o → o.fill size = .ok o' → P m o') :
    BookRule fun m b => b.AllOrders (P m) :=
  ⟨fun id hb => hb.remove id, fun hb h => hb.modify (fun _ _ ho hf => hP ho hf) h⟩

variable {C : MarketId → OrderBook → Prop}

namespace MatchingEngine

/-- **Matching** keeps a condition that lets the remainder in. -/
theorem processOrder_books {order : Order} {book book' : OrderBook}
    {r : Except Error (Order × List Fill)} (hC : BookRule C) (hin : LetsIn C order)
    (hb : C order.marketId book) (h : processOrder order book = .ok (r, book')) :
    C order.marketId book' := by
  obtain ⟨order₁, book₁, fills₁, r₁, hmatch, hun, -⟩ := processOrder_cases h
  have hloop : FilledFrom order order₁ ∧ C order.marketId book₁ := by
    refine matchAgainst_induction (P := fun o b _ => FilledFrom order o ∧ C order.marketId b)
      ⟨.refl _, hb⟩ (fun _ _ _ _ _ hx => ⟨hx.1, hC.remove _ hx.2⟩) ?_ hmatch
    intro o o₁ b b₁ _ best _ _ ho₁ hb₁ hx
    refine ⟨hx.1.trans (fill_filledFrom ho₁).1, ?_⟩
    rcases fillResting_cases hb₁ with rfl | hb₁
    · exact hC.remove _ hx.2
    · exact hC.fill hx.2 hb₁
  rcases handleUnfilled_cases hun with ⟨-, -, rfl⟩ | ⟨-, -, rfl, -⟩ | ⟨-, hrest, -, hins⟩ |
    ⟨-, -, -, rfl⟩
  · exact hloop.2
  · exact hloop.2
  · exact hin order₁ hloop.1 hrest _ _ hloop.2 hins
  · exact hloop.2

end MatchingEngine

namespace EngineState

theorem booksMeet_syncMakers {s : EngineState} (hC : BookRule C) (hs : s.maps.BooksMeet C)
    (m : MarketId) (fills : List Fill) : (Engine.syncMakers s m fills).maps.BooksMeet C := by
  unfold Engine.syncMakers
  split
  · exact hs
  · refine List.foldlRecOn (motive := fun s : EngineState => s.maps.BooksMeet C) _ _
      (List.foldlRecOn (motive := fun s : EngineState => s.maps.BooksMeet C) _ _ hs
        fun s hs id _ => ?_) fun s hs p _ => ?_
    · rw [maps_removeOrder]
      exact hs.removeOrder fun _ hb => hC.remove id hb
    · rw [maps_updateOrderRemaining]
      exact hs.restateRecord m p.1 p.2

end EngineState

namespace Engine

open EngineState MatchingEngine OrderBook

section Execute

variable {e e' : Engine} {market : Market} {order : Order} {r : Except Error (Order × List Fill)}

/-- **Execution** keeps a condition on books that lets the remainder in. -/
theorem executeOrder_books (hC : BookRule C) (hin : LetsIn C order)
    (hs : e.state.maps.BooksMeet C) (h : e.executeOrder market order = .ok (r, e')) :
    e'.state.maps.BooksMeet C := by
  refine executeOrder_rule (P := fun e => e.state.maps.BooksMeet C) hs ?_ h
  intro book r₁ book' hbook hproc
  have hset : (e.state.setOrderbook order.marketId book').maps.BooksMeet C :=
    BooksMeet.setBook hs (processOrder_books hC hin (hs _ book hbook) hproc)
  refine ⟨hset, fun updated fills fills' e₁ s hr heq hsettle => ?_⟩
  subst hr heq
  have hkept : OrdersKept _ e₁.state := .of_fill (settleFills_only hsettle).1
  have hsettled : e₁.state.maps.BooksMeet C :=
    (booksMeet_syncMakers hC hset updated.marketId fills).of_books hkept.orderbooks
  refine ⟨hsettled, fun hrest s' hadd => ?_⟩
  obtain ⟨hfrom, -⟩ := (processOrder_all (P := fun _ => True) (fun _ _ _ _ _ => trivial)
    (fun _ _ _ _ => trivial) (fun _ _ => trivial) hproc).2 updated fills rfl
  have hmarket : updated.marketId = order.marketId := by rw [hfrom.1]
  rw [Bool.and_eq_true] at hrest
  refine hsettled.addOrder (fun b b' hb hins => ?_) (maps_addOrder hadd)
  rw [hmarket] at hb ⊢
  exact hin updated hfrom hrest.2 b b' hb hins

theorem executeOrder_next (h : e.executeOrder market order = .ok (r, e')) :
    e'.state.nextOrderId = e.state.nextOrderId := by
  have horders : ∀ {s s' : EngineState}, OrdersOnly s s' → s'.nextOrderId = s.nextOrderId := by
    rintro s _ ⟨_, _, _, rfl⟩
    rfl
  refine executeOrder_rule (P := fun e' => e'.state.nextOrderId = e.state.nextOrderId) rfl ?_ h
  intro book r₁ book' _ _
  refine ⟨rfl, fun updated fills fills' e₁ s _ heq hsettle => ?_⟩
  subst heq
  have hkept : OrdersKept _ e₁.state := .of_fill (settleFills_only hsettle).1
  have hsettled := hkept.nextOrderId.trans (horders (syncMakers_only _ updated.marketId fills))
  exact ⟨hsettled, fun _ s' hadd => (horders (addOrder_only hadd)).trans hsettled⟩

/-- An order with a new id may be put into standing books, also twice. -/
theorem executeOrder_stands (hs : e.state.maps.BooksMeet fun _ b => b.StandingBelow order.id)
    (h : e.executeOrder market order = .ok (r, e')) :
    e'.state.maps.BooksMeet fun _ b => b.StandingBelow (order.id + 1) := by
  -- what stands under the id of the order stands in the place of the order
  let C : MarketId → OrderBook → Prop := fun m b => b.StandingBelow (order.id + 1) ∧
    (m = order.marketId → ∀ (s : OrderSide) (k : OrderKey) (o : Order), (b.side s)[k]? = some o →
      o.id = order.id → s = order.side ∧ k = order.rawKey)
  have hC : BookRule C := by
    refine ⟨fun id hb => ⟨hb.1.remove id, fun hm s k o ho => ?_⟩, fun hb h => ⟨hb.1.fill h, ?_⟩⟩
    · exact hb.2 hm s k o (side_remove_subset ho)
    · intro hm s k o ho hid
      obtain ⟨o₀, h₀, hsame⟩ := side_modify (fun _ _ hw => Order.fill_samePlace hw) h s k o ho
      exact hb.2 hm s k o₀ h₀ (hsame.1.symm.trans hid)
  have hin : LetsIn C order := by
    intro updated hfrom _ b b' hb hins
    have hid : updated.id = order.id := by rw [hfrom.1]
    have hside : updated.side = order.side := by rw [hfrom.1]
    have hkey : updated.rawKey = order.rawKey := by rw [hfrom.1]; rfl
    -- an entry of the new book is the remainder, or was there
    have hcases : ∀ (s : OrderSide) (k : OrderKey) (o : Order), (b'.side s)[k]? = some o →
        (s = order.side ∧ k = order.rawKey ∧ o = updated) ∨ (b.side s)[k]? = some o := by
      intro s k o ho
      rw [insert_side hins, hside, hkey] at ho
      split at ho
      · rename_i hs
        rw [FinMap.get_insert] at ho
        split at ho
        · rename_i hk
          exact .inl ⟨hs.symm, hk.symm, (Option.some.inj ho).symm⟩
        · exact .inr ho
      · exact .inr ho
    refine ⟨⟨hb.1.standing.put (fun s k o ho hido => ?_) hins, fun s k o ho => ?_⟩,
      fun hm s k o ho hido => ?_⟩
    · rw [hside, hkey]
      exact hb.2 rfl s k o ho (hido.trans hid)
    · rcases hcases s k o ho with ⟨-, -, rfl⟩ | ho
      · exact hid ▸ Nat.lt_succ_self _
      · exact hb.1.below s k o ho
    · rcases hcases s k o ho with ⟨hs, hk, -⟩ | ho
      · exact ⟨hs, hk⟩
      · exact hb.2 rfl s k o ho hido
  have hbooks : e.state.maps.BooksMeet C := hs.imp fun m b hb =>
    ⟨hb.mono (Nat.le_succ _), fun _ s k o ho hid => absurd hid (hb.below s k o ho).ne⟩
  exact (executeOrder_books hC hin hbooks h).imp fun _ _ hb => hb.1

end Execute

/-- The books stand, and the ids on them are below the next one. -/
def BooksStand (s : EngineState) : Prop :=
  s.maps.BooksMeet fun _ b => b.StandingBelow s.nextOrderId

section Operations

variable {e e' : Engine} {s s' : EngineState}

theorem BooksStand.of_kept (hs : BooksStand s) (h : OrdersKept s s') : BooksStand s' := by
  unfold BooksStand
  rw [h.nextOrderId]
  exact BooksMeet.of_books hs h.orderbooks

theorem BooksStand.removeOrder (hs : BooksStand s) (m : MarketId) (id : OrderId) :
    BooksStand (s.removeOrder m id).2 := by
  unfold BooksStand
  obtain ⟨_, _, _, honly⟩ := removeOrder_only s m id
  rw [maps_removeOrder, honly]
  exact BooksMeet.removeOrder hs fun b hb => hb.remove id

/-- With the next id taken, the ids on the books are below it still. -/
theorem BooksStand.enter (hs : BooksStand e.state) (a : AccountAddress) (m : MarketId) :
    BooksStand (e.enter a m).state ∧
      (e.enter a m).state.maps.BooksMeet fun _ b => b.StandingBelow e.state.nextOrderId := by
  obtain ⟨_, _, hsame⟩ := enter_only e a m
  rw [hsame]
  exact ⟨BooksMeet.imp hs fun _ b hb => hb.mono (Nat.le_succ _), hs⟩

/-- **Submission.** -/
theorem submitOrder_booksStand {a : AccountAddress} {q : OrderRequest} {t : Timestamp}
    {r : Except Error (Order × List Fill)} (hs : BooksStand e.state)
    (h : e.submitOrder a q t = .ok (r, e')) : BooksStand e'.state := by
  obtain ⟨henter, hbelow⟩ := hs.enter a q.marketId
  refine submitOrder_rule (P := fun e => BooksStand e.state) hs ?_
    (fun _ ht => henter.of_kept (.of_triggers ht)) (fun market _ hexec => ?_) h
  · obtain ⟨_, _, hsame⟩ := openAccount_only e a q.marketId
    rw [hsame]
    exact hs
  · have hnext := executeOrder_next hexec
    obtain ⟨_, _, hsame⟩ := enter_only e a q.marketId
    rw [hsame] at hnext
    unfold BooksStand
    rw [hnext]
    exact executeOrder_stands hbelow hexec

/-- **Step lemma.** -/
theorem step_booksStand {op : Op} (hs : BooksStand e.state) (h : step op e = .ok e') :
    BooksStand e'.state := by
  have hmeets := submitsMeet_of_forall (G := fun _ _ _ => True) (fun _ _ _ => trivial) e op
  refine step_rule (fun _ m id hs => hs.removeOrder m id) hs hmeets ?_ ?_ ?_ ?_ ?_ h
  · exact fun _ _ _ _ _ _ hs _ h => submitOrder_booksStand hs h
  · exact fun _ _ hs ht => hs.of_kept (.of_triggers ht)
  · exact fun _ _ _ => hs
  · exact fun _ _ _ h => hs.of_kept (.of_upkeep (processFunding_only h).state)
  · exact fun _ _ _ _ h => hs.of_kept (.of_upkeep (processLiquidations_only h).state)

theorem Fresh.booksStand (h : Fresh e) : BooksStand e.state :=
  h.rule (P := BooksStand) (fun m b hb => by simp [EngineState.maps, EngineState.new] at hb)
    fun _ config _ _ ih => BooksMeet.setBook (m := config.id) ih ⟨new_standing, AllOrders.new⟩

/-- **Run lemma.** The books of a reachable engine stand, with ids given out before. -/
theorem Reachable.booksStand (h : Reachable e) : BooksStand e.state :=
  h.induction (fun _ hf => hf.booksStand) fun _ _ _ hs _ hstep => step_booksStand hs hstep

end Operations

end Engine

end Hypercore
