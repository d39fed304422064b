import Hypercore.Chain.Cloids
import Hypercore.Chain.Engines
import Hypercore.Spot.OrderFate
/-!
# Hypercore.Gateway.OrderStatuses

The statuses that the gateway answers a batch of orders with.

They are read off the events of the execution alone. An event of a spot order does not say what
remains, so any fill reads as a complete one; and an order without fills reads as resting,
whether it rests or not. `OrderFate` is what became of an order; `OrderTold` says of an order
and the state it meets when its status tells that.
-/

namespace Hypercore

open Exec Int128

/-! ### Statuses -/

/-- An entry of `statuses` in the response. -/
inductive StatusEntry
  | filled (oid : OrderId) (totalSz : String)
  | resting (oid : OrderId)
  | error (message : String)
  deriving DecidableEq, Repr

namespace StatusEntry

/-- The status of an accepted order. No event has a `size` attribute. -/
def accepted (oid : OrderId) (fillsCount : Nat) (remaining : String) : StatusEntry :=
  if fillsCount > 0 ∧ (remaining = "0" ∨ remaining = "") then .filled oid ""
  -- a partial fill and no fill read the same
  else if fillsCount > 0 then .resting oid
  else .resting oid

/-- The status that an event stands for, if it is about an order. -/
def ofEvent : Event → Option StatusEntry
  | .perpOrder orderId _ _ fills remaining => some (accepted orderId fills remaining)
  -- the attribute `remaining` is missing
  | .spotOrder orderId _ _ fills => some (accepted orderId fills "")
  | .perpOrderFailed message _ | .spotOrderFailed message _ => some (.error message)
  | .perpOrderSkipped _ _ reason => some (.error ("Order skipped: " ++ reason))
  | _ => none

/-- What a status says became of the order. -/
def fate : StatusEntry → OrderFate
  | filled _ _ => .filled
  | resting oid => .rests oid
  | error _ => .failed

end StatusEntry

/-- Extract order statuses from events. -/
def extractOrderStatuses (events : List Event) : List StatusEntry :=
  events.filterMap StatusEntry.ofEvent

/-- The events of an execution; one that fails returns none. -/
def eventsOf : Except AppError TxResult → List Event
  | .ok result => result.events
  | .error _ => []

section Statuses

variable {oid : OrderId} {n : Nat} {remaining : String}

/-- The status of an accepted order looks for a fill, and for an event that denies a rest. -/
theorem StatusEntry.fate_accepted : (accepted oid n remaining).fate =
    if 0 < n ∧ (remaining = "0" ∨ remaining = "") then .filled else .rests oid := by
  unfold accepted
  split
  · rfl
  · split <;> rfl

theorem extractOrderStatuses_append (events events' : List Event) :
    extractOrderStatuses (events ++ events') =
      extractOrderStatuses events ++ extractOrderStatuses events' :=
  List.filterMap_append

/-- Fills have no status. -/
@[simp] theorem extractOrderStatuses_fills (fills : List Fill) :
    extractOrderStatuses (fills.map fun f =>
      Event.perpFill f.maker f.taker f.price f.size f.marketId) = [] := by
  unfold extractOrderStatuses
  rw [List.filterMap_map]
  exact List.filterMap_eq_nil_iff.mpr fun _ _ => rfl

end Statuses

/-! ### What became of the orders -/

/-- The fate of a placement, on the book it leaves. -/
def placementFate {φ : Type} (r : Except Error (Order × φ)) (book : Option OrderBook) :
    OrderFate :=
  match r with
  | .ok (order, _) => order.fate book
  | .error _ => .failed

/-- What becomes of an order, right after it is placed and before any trigger fires. -/
def Engine.orderFate (e : Engine) (account : AccountAddress) (request : OrderRequest)
    (timestamp : Timestamp) : Exec OrderFate := do
  let (r, e) ← e.submitOrder account request timestamp
  return placementFate r (e.state.getOrderbook request.marketId)

/-- What becomes of a spot order. -/
def SpotEngineState.orderFate (s : SpotEngineState) (account : AccountAddress)
    (marketId : SpotMarketId) (request : OrderRequest) (timestamp : Timestamp) :
    Exec OrderFate := do
  let (r, s) ← s.placeOrder account marketId request timestamp
  return placementFate r s.orderbooks[marketId]?

namespace AppState

/-- What becomes of an order in the state it meets. -/
def orderFate (s : AppState) (sender : AccountAddress) (wire : OrderWire)
    (timestamp : Timestamp) : Exec OrderFate :=
  match wire.toOrderRequest with
  | .error _ => return .failed
  | .ok request =>
    if 128 ≤ wire.a then
      match s.spot with
      | none => return .failed
      | some engine => engine.orderFate sender wire.a request timestamp
    else
      match s.perp with
      | none => return .failed
      | some engine => engine.orderFate sender request timestamp

/-- What becomes of the orders of a batch. An order that cannot be read stops it: no order
after it is placed. -/
def batchFates (sender : AccountAddress) (timestamp : Timestamp) :
    List OrderWire → OrderBatch → Exec (List OrderFate)
  | [], _ => return []
  | wire :: wires, b => do
    let fate ← b.app.orderFate sender wire timestamp
    match ← batchOrder b sender wire timestamp with
    | .error _ => return fate :: wires.map fun _ => .failed
    | .ok b => return fate :: (← batchFates sender timestamp wires b)

/-- What becomes of the orders of a transaction. One that is not valid places none. -/
def txFates (s : AppState) (tx : Transaction) (orders : List OrderWire) (timestamp : Timestamp) :
    Exec (List OrderFate) :=
  match s.validateTx tx timestamp, tx.sender with
  | .ok (), .ok sender => batchFates sender timestamp orders ⟨s, [], [], []⟩
  | _, _ => return orders.map fun _ => .failed

end AppState

/-! ### When a status tells -/

/-- Of an order that is accepted, the status tells what became of it: the order is no trigger
order, and is completely filled or of a kind that rests. -/
def Engine.Tells (e : Engine) (account : AccountAddress) (request : OrderRequest)
    (timestamp : Timestamp) : Prop :=
  ∀ order fills e', e.submitOrder account request timestamp = .ok (.ok (order, fills), e') →
    request.triggerPrice = none ∧ (e.Completes account request timestamp ∨
      request.orderType = .limit .gtc ∨ request.orderType = .limit .alo)

/-- Of a spot order that is accepted, the status tells what became of it: the other side covers
all of the order, or the order reaches nothing and is of a kind that rests. -/
def SpotEngineState.Tells (s : SpotEngineState) (account : AccountAddress)
    (marketId : SpotMarketId) (request : OrderRequest) (timestamp : Timestamp) : Prop :=
  ∀ order fills s', s.placeOrder account marketId request timestamp =
      .ok (.ok (order, fills), s') →
    s.Covers marketId request ∨ ¬ s.Reaches marketId request ∧
      (request.orderType = .limit .gtc ∨ request.orderType = .limit .alo)

namespace AppState

/-- The status of an order tells what became of it. -/
def Tells (sender : AccountAddress) : EffectCond
  | s, .spotOrder m q t => ∀ e, s.spot = some e → e.Tells sender m q t
  | s, .perpOrder q t => ∀ e, s.perp = some e → e.Tells sender q t
  | _, _ => True

end AppState

section Perp

variable {e e' : Engine} {a : AccountAddress} {q : OrderRequest} {t : Timestamp} {order : Order}
  {fills : List Fill} {m : MarketId}

/-- **A perp order** that is accepted. -/
theorem Engine.tells_iff (he : AppState.PerpLeads e) (hplaces : q.size.decimals = 8)
    (h : e.submitOrder a q t = .ok (.ok (order, fills), e')) :
    (StatusEntry.accepted order.id fills.length order.remainingSize.toStringTrimmed).fate =
      order.fate (e'.state.getOrderbook q.marketId) ↔ e.Tells a q t := by
  obtain ⟨hsome, hcompletes, hdecimals, htype, hfate⟩ := submitOrder_fate he.reachable.filed
    he.reachable.idsBelow (fun market hm => he.lot hm) h
  have hrest : order.shouldRest = true ↔ q.orderType = .limit .gtc ∨ q.orderType = .limit .alo := by
    rw [Order.shouldRest_iff, htype]
  have htells : e.Tells a q t ↔
      q.triggerPrice = none ∧ (e.Completes a q t ∨ order.shouldRest = true) := by
    rw [hrest]
    constructor
    · intro htells
      exact htells order fills e' h
    · intro hkind _ _ _ _
      exact hkind
  have htext : (0 < fills.length ∧ (order.remainingSize.toStringTrimmed = "0" ∨
      order.remainingSize.toStringTrimmed = "")) ↔ order.isFilled = true := by
    rw [Decimal.toStringTrimmed_eq_zero (hdecimals.trans hplaces),
      or_iff_left (Decimal.toStringTrimmed_ne_empty _)]
    constructor
    · rintro ⟨-, hz⟩
      exact Decimal.isZero_iff.mpr hz
    · intro hfilled
      exact ⟨List.length_pos_of_ne_nil (hsome hfilled), Decimal.isZero_iff.mp hfilled⟩
  rw [StatusEntry.fate_accepted, hfate, htells]
  simp only [htext]
  cases hfilled : order.isFilled with
  | true =>
    obtain ⟨hnone, hc⟩ := hcompletes.mp hfilled
    simp [hnone, hc]
  | false =>
    have hnot : ¬ (q.triggerPrice = none ∧ e.Completes a q t) := by
      rw [← hcompletes, hfilled]
      simp
    by_cases hnone : q.triggerPrice = none
    · have hc : ¬ e.Completes a q t := fun hc => hnot ⟨hnone, hc⟩
      cases order.shouldRest <;> simp [hnone, hc]
    · simp [hnone]

end Perp

section Spot

variable {s s' : SpotEngineState} {u : UnifiedState} {a : AccountAddress} {q : OrderRequest}
  {t : Timestamp} {order : Order} {fills : List SpotFill} {m : SpotMarketId}

/-- **A spot order** that is accepted. -/
theorem SpotEngineState.tells_iff (hs : SpotCall.Arrives u s) (hplaces : q.size.decimals = 8)
    (hm : q.marketId = m) (h : s.placeOrder a m q t = .ok (.ok (order, fills), s')) :
    (StatusEntry.accepted order.id fills.length "").fate = order.fate s'.orderbooks[m]? ↔
      s.Tells a m q t := by
  obtain ⟨hhoused, hsteady⟩ := SpotCall.Leads.steady (hs.mono fun _ _ _ => trivial)
  obtain ⟨hsome, hcovers, hreaches, htype, hfate⟩ :=
    placeOrder_fate hhoused hsteady hs.scaled hplaces hm h
  have hrest : order.shouldRest = true ↔ q.orderType = .limit .gtc ∨ q.orderType = .limit .alo := by
    rw [Order.shouldRest_iff, htype]
  have htells : s.Tells a m q t ↔
      order.isFilled = true ∨ fills = [] ∧ order.shouldRest = true := by
    rw [hcovers, hreaches, hrest]
    constructor
    · intro htells
      exact htells order fills s' h
    · intro hkind _ _ _ _
      exact hkind
  rw [StatusEntry.fate_accepted, hfate, htells]
  simp only [or_true, and_true, List.length_pos_iff]
  cases hfilled : order.isFilled with
  | true => simp [hsome hfilled]
  | false =>
    -- not filled: any fill reads as a complete one
    by_cases hnil : fills = []
    · cases order.shouldRest <;> simp [hnil]
    · cases order.shouldRest <;> simp [hnil]

end Spot

namespace AppState

/-! ### One order of a batch -/

section Batch

variable {b b' : OrderBatch} {sender : AccountAddress} {wire : OrderWire} {q : OrderRequest}
  {t : Timestamp}

/-- What an order of a batch adds to the events, what its status says, and what became of it. -/
structure OrderTold (sender : AccountAddress) (wire : OrderWire) (t : Timestamp)
    (b b' : OrderBatch) (events : List Event) (entry : StatusEntry) (fate : OrderFate) : Prop where
  fate_eq : b.app.orderFate sender wire t = .ok fate
  events_eq : b'.events = b.events ++ events
  entry_eq : extractOrderStatuses events = [entry]

/-- **A spot order of a batch.** -/
theorem batchSpotOrder_told (hs : b.app.Leads) (hq : wire.toOrderRequest = .ok q)
    (hm : 128 ≤ wire.a) (h : batchSpotOrder b sender wire.a q t = .ok b') :
    ∃ events entry fate, OrderTold sender wire t b b' events entry fate ∧
      (entry.fate = fate ↔ Tells sender b.app (.spotOrder wire.a q t)) := by
  obtain ⟨e₀, -, he₀, -⟩ := hs.spot
  obtain ⟨e, he⟩ : ∃ e, b.app.spot = some e := ⟨_, congrArg (Option.map _) he₀⟩
  obtain ⟨u, harrives⟩ := hs.spot_arrives he
  have htells : Tells sender b.app (.spotOrder wire.a q t) ↔ e.Tells sender wire.a q t := by
    constructor
    · exact fun htells => htells e he
    · intro htells e₁ he₁
      obtain rfl := Option.some.inj (he.symm.trans he₁)
      exact htells
  unfold batchSpotOrder at h
  simp only [he] at h
  obtain ⟨⟨r, e'⟩, hp, h⟩ := bind_inv h
  have hfate : b.app.orderFate sender wire t = .ok (placementFate r e'.orderbooks[wire.a]?) := by
    unfold orderFate
    simp only [hq, if_pos hm, he]
    exact bind_eq_ok.mpr ⟨_, hp, rfl⟩
  cases r with
  | error err =>
    obtain rfl := pure_inv h
    refine ⟨_, _, _, ⟨hfate, rfl, rfl⟩, iff_of_true rfl (htells.mpr fun order fills e₂ hp₂ => ?_)⟩
    cases ok_unique hp hp₂
  | ok p =>
    obtain ⟨order, fills⟩ := p
    obtain ⟨app, -, h⟩ := bind_inv h
    obtain rfl := pure_inv h
    exact ⟨_, _, _, ⟨hfate, rfl, rfl⟩,
      (SpotEngineState.tells_iff harrives (OrderWire.toOrderRequest_size hq)
        (OrderWire.toOrderRequest_marketId hq) hp).trans htells.symm⟩

/-- **A perp order of a batch.** -/
theorem batchPerpOrder_told (hs : b.app.Leads) (hq : wire.toOrderRequest = .ok q)
    (hm : ¬ 128 ≤ wire.a) (h : batchPerpOrder b sender wire.a q t = .ok b') :
    ∃ events entry fate, OrderTold sender wire t b b' events entry fate ∧
      (entry.fate = fate ↔ Tells sender b.app (.perpOrder q t)) := by
  obtain ⟨e₀, he₀, -⟩ := hs.perp
  obtain ⟨e, he⟩ : ∃ e, b.app.perp = some e := ⟨_, congrArg (Option.map _) he₀⟩
  have hleads := hs.perp_leads he
  have htells : Tells sender b.app (.perpOrder q t) ↔ e.Tells sender q t := by
    constructor
    · exact fun htells => htells e he
    · intro htells e₁ he₁
      obtain rfl := Option.some.inj (he.symm.trans he₁)
      exact htells
  unfold batchPerpOrder at h
  simp only [he] at h
  obtain ⟨⟨r, e'⟩, hp, h⟩ := bind_inv h
  obtain ⟨e₁, hsubmit⟩ := Engine.placeOrder_submits hp
  have hfate : b.app.orderFate sender wire t =
      .ok (placementFate r (e₁.state.getOrderbook q.marketId)) := by
    unfold orderFate
    simp only [hq, if_neg hm, he]
    exact bind_eq_ok.mpr ⟨_, hsubmit, rfl⟩
  cases r with
  | error err =>
    obtain rfl := pure_inv h
    refine ⟨_, _, _, ⟨hfate, rfl, rfl⟩, iff_of_true rfl (htells.mpr fun order fills e₂ hp₂ => ?_)⟩
    cases ok_unique hsubmit hp₂
  | ok p =>
    obtain ⟨order, fills⟩ := p
    obtain ⟨app, -, h⟩ := bind_inv h
    obtain rfl := pure_inv h
    refine ⟨_, _, _, ⟨hfate, List.append_assoc _ _ _, ?_⟩,
      (Engine.tells_iff hleads (OrderWire.toOrderRequest_size hq) hsubmit).trans htells.symm⟩
    rw [extractOrderStatuses_append, extractOrderStatuses_fills, List.nil_append]
    rfl

/-- **An order of a batch** that can be read. -/
theorem batchOrder_told (hs : b.app.Leads) (h : batchOrder b sender wire t = .ok (.ok b')) :
    ∃ q events entry fate, wire.toOrderRequest = .ok q ∧
      OrderTold sender wire t b b' events entry fate ∧
      (entry.fate = fate ↔ Tells sender b.app (orderEffect wire.a q t)) := by
  unfold batchOrder at h
  split at h
  · cases pure_inv h
  · rename_i q hq
    obtain ⟨b₁, h₁, h⟩ := bind_inv h
    obtain rfl : b₁ = b' := by simpa using h
    unfold orderEffect
    split at h₁
    · rename_i hm
      obtain ⟨events, entry, fate, htold, hiff⟩ := batchSpotOrder_told hs hq hm h₁
      exact ⟨q, events, entry, fate, hq, htold, by rwa [if_pos hm]⟩
    · rename_i hm
      obtain ⟨events, entry, fate, htold, hiff⟩ := batchPerpOrder_told hs hq hm h₁
      exact ⟨q, events, entry, fate, hq, htold, by rwa [if_neg hm]⟩

/-- An order that stops its batch cannot be read, and is not placed. -/
theorem batchOrder_unread {err : TransactionError}
    (h : batchOrder b sender wire t = .ok (.error err)) :
    wire.toOrderRequest = .error err ∧ b.app.orderFate sender wire t = .ok .failed := by
  unfold batchOrder at h
  split at h
  · rename_i err' hq
    obtain rfl := Except.error.inj (pure_inv h)
    refine ⟨hq, ?_⟩
    unfold orderFate
    simp only [hq]
    rfl
  · obtain ⟨b₁, -, h⟩ := bind_inv h
    cases pure_inv h

end Batch

end AppState

/-! ### Whole batches -/

/-- The order can be read. -/
def OrderWire.Readable (w : OrderWire) : Prop := ∃ request, w.toOrderRequest = .ok request

namespace AppState

section Run

variable {s s' : AppState} {sender : AccountAddress} {t : Timestamp}

/-- **Run.** A batch of readable orders has one status for each, and these tell what became of
the orders exactly when each does. -/
theorem runOrders_told {wires : List OrderWire} {b : OrderBatch}
    {r : Except AppError (List Event)} (hs : b.app.Leads)
    (h : runOrders sender t wires b = .ok (r, s')) :
    ∃ fates, batchFates sender t wires b = .ok fates ∧ fates.length = wires.length ∧
      (((∃ err, r = .error err) ∧ ¬ ∀ wire ∈ wires, wire.Readable) ∨
        ∃ events, r = .ok (b.events ++ events) ∧ (∀ wire ∈ wires, wire.Readable) ∧
          ((extractOrderStatuses events).map (·.fate) = fates ↔
            BatchMeets (Tells sender) sender t wires b)) := by
  induction wires generalizing b with
  | nil =>
    obtain ⟨rfl, -⟩ := pair_inv h
    exact ⟨[], rfl, rfl, .inr ⟨[], by rw [List.append_nil], by simp, iff_of_true rfl trivial⟩⟩
  | cons wire wires ih =>
    obtain ⟨r₁, h₁, h⟩ := bind_inv h
    cases r₁ with
    | error err =>
      obtain ⟨rfl, -⟩ := pair_inv h
      obtain ⟨hunread, hfate⟩ := batchOrder_unread h₁
      refine ⟨.failed :: wires.map fun _ => .failed, ?_, by simp, .inl ⟨⟨_, rfl⟩, fun hread => ?_⟩⟩
      · exact bind_eq_ok.mpr ⟨_, hfate, bind_eq_ok.mpr ⟨_, h₁, rfl⟩⟩
      · obtain ⟨q, hq⟩ := hread wire (.head _)
        rw [hunread] at hq
        cases hq
    | ok b₁ =>
      obtain ⟨q, events, entry, fate, hq, htold, hiff⟩ := batchOrder_told hs h₁
      have hs₁ : b₁.app.Leads :=
        hs.reaches (batchOrder_reaches onWire_free (onWire_orders sender t [wire] b).1 h₁)
      obtain ⟨fates, hfates, hlength, hend⟩ := ih hs₁ h
      refine ⟨fate :: fates, ?_, by simp [hlength], ?_⟩
      · exact bind_eq_ok.mpr ⟨_, htold.fate_eq, bind_eq_ok.mpr ⟨_, h₁,
          bind_eq_ok.mpr ⟨_, hfates, rfl⟩⟩⟩
      rcases hend with ⟨herr, hunread⟩ | ⟨rest, rfl, hread, hrest⟩
      · exact .inl ⟨herr, fun hread => hunread fun w hw => hread w (.tail _ hw)⟩
      · refine .inr ⟨events ++ rest, by rw [htold.events_eq, List.append_assoc],
          List.forall_mem_cons.mpr ⟨⟨q, hq⟩, hread⟩, ?_⟩
        rw [extractOrderStatuses_append, htold.entry_eq]
        show entry.fate :: (extractOrderStatuses rest).map (·.fate) = fate :: fates ↔ _
        rw [List.cons.injEq, hiff, hrest]
        refine and_congr ⟨fun htells request hr => ?_, fun htells => htells q hq⟩
          ⟨fun hmeets b₂ h₂ => ?_, fun hmeets => hmeets b₁ h₁⟩
        · obtain rfl := ok_unique hq hr
          exact htells
        · obtain rfl := Except.ok.inj (ok_unique h₁ h₂)
          exact hmeets

/-- **Order statuses.** They tell what became of each order of a transaction, in order, exactly
when the transaction is valid, its orders can be read, and each order that is accepted, in the
state it meets, is one whose status tells. They are made from the events alone, so an order is
told wrongly where its event says too little. -/
theorem statuses_tell_iff {tx : Transaction} {orders : List OrderWire}
    {r : Except AppError TxResult} (hs : s.Reachable)
    (haction : tx.action = .order orders ∨ tx.action = .spotOrder orders)
    (h : s.executeTx tx t = .ok (r, s')) :
    ∃ fates, s.txFates tx orders t = .ok fates ∧ fates.length = orders.length ∧
      ((extractOrderStatuses (eventsOf r)).map (·.fate) = fates ↔
        orders = [] ∨ ∃ sender, s.validateTx tx t = .ok () ∧ tx.sender = .ok sender ∧
          (∀ wire ∈ orders, wire.Readable) ∧
          BatchMeets (Tells sender) sender t orders ⟨s, [], [], []⟩) := by
  -- without events the statuses are right of no orders only
  have hnone : ∀ {fates : List OrderFate}, fates.length = orders.length → ∀ {P : Prop}, ¬ P →
      (([] : List OrderFate) = fates ↔ orders = [] ∨ P) := by
    intro fates hlength P hP
    rw [or_iff_left hP, ← List.length_eq_zero_iff, ← hlength, List.length_eq_zero_iff, eq_comm]
  unfold executeTx at h
  unfold txFates
  cases hvalid : s.validateTx tx t with
  | error err =>
    simp only [hvalid] at h
    obtain ⟨rfl, -⟩ := pair_inv h
    refine ⟨orders.map fun _ => .failed, rfl, by simp, hnone (by simp) ?_⟩
    rintro ⟨sender, hv, -⟩
    cases hv
  | ok done =>
    simp only [hvalid] at h
    cases hsender : tx.sender with
    | error err =>
      unfold validateTx at hvalid
      rw [hsender] at hvalid
      cases hvalid
    | ok sender =>
      simp only [hsender] at h
      obtain ⟨⟨ra, s₁⟩, hact, h⟩ := bind_inv h
      have hrun : runOrders sender t orders ⟨s, [], [], []⟩ = .ok (ra, s₁) := by
        rcases haction with heq | heq
        · rw [heq] at hact
          exact hact
        · rw [heq] at hact
          exact hact
      obtain ⟨fates, hfates, hlength, hend⟩ := runOrders_told (b := ⟨s, [], [], []⟩) hs.leads hrun
      refine ⟨fates, hfates, hlength, ?_⟩
      rcases hend with ⟨⟨err, rfl⟩, hunread⟩ | ⟨events, rfl, hread, hiff⟩
      · obtain ⟨rfl, -⟩ := pair_inv h
        refine hnone hlength ?_
        rintro ⟨sender', -, -, hread, -⟩
        exact hunread hread
      · obtain ⟨s₂, -, h⟩ := bind_inv h
        obtain ⟨rfl, -⟩ := pair_inv h
        refine hiff.trans ⟨fun hmeets => .inr ⟨sender, rfl, rfl, hread, hmeets⟩, ?_⟩
        rintro (rfl | ⟨sender', -, hsame, -, hmeets⟩)
        · trivial
        · obtain rfl := Except.ok.inj hsame
          exact hmeets

end Run

/-! ### Two orders at the genesis -/

/-- What a node of one funded account answers to its only order. -/
def firstOrder (tif : String) : Exec (AppState × Except AppError TxResult × AppState) := do
  let s ← genesis (usdcGenesis [(1, 1000000000)])
  let (r, s') ← s.executeTx (cloidTx 1 0 (cloidWire true tif none)) 1000
  return (s, r, s')

/-- The statuses of that answer, and what became of the order. -/
def firstStatuses (tif : String) (p : AppState × Except AppError TxResult × AppState) :
    List StatusEntry × Exec (List OrderFate) :=
  (extractOrderStatuses (eventsOf p.2.1),
    p.1.txFates (cloidTx 1 0 (cloidWire true tif none)) [cloidWire true tif none] 1000)

theorem firstOrder_eq_ok {tif : String} {s s' : AppState} {r : Except AppError TxResult}
    (h : firstOrder tif = .ok (s, r, s')) : s.Reachable ∧
      s.executeTx (cloidTx 1 0 (cloidWire true tif none)) 1000 = .ok (r, s') := by
  obtain ⟨s₀, h0, h⟩ := bind_inv h
  obtain ⟨⟨r₀, s₁⟩, hr, h⟩ := bind_inv h
  cases pure_inv h
  have hrun : nodeRun (usdcGenesis [(1, 1000000000)]) [] = .ok s := bind_eq_ok.mpr ⟨_, h0, rfl⟩
  exact ⟨nodeRun_reachable (usdcGenesis_nonneg _) hrun, hr⟩

/-- An order that finds an empty book and rests. -/
theorem statuses_tell_gtc : ∃ s r s' sender, s.Reachable ∧
    s.executeTx (cloidTx 1 0 (cloidWire true "Gtc" none)) 1000 = .ok (r, s') ∧
    extractOrderStatuses (eventsOf r) = [.resting 1] ∧
    BatchMeets (Tells sender) sender 1000 [cloidWire true "Gtc" none] ⟨s, [], [], []⟩ := by
  obtain ⟨⟨s, r, s'⟩, hrun, htest⟩ := exists_of_test (x := firstOrder "Gtc")
    (p := fun p => decide (firstStatuses "Gtc" p = ([.resting 1], .ok [.rests 1])))
    (by decide +kernel)
  obtain ⟨hstatuses, hfates⟩ := Prod.mk.inj (of_decide_eq_true htest)
  obtain ⟨hs, hr⟩ := firstOrder_eq_ok hrun
  obtain ⟨fates, hf, -, hiff⟩ := statuses_tell_iff hs (.inl rfl) hr
  obtain rfl := ok_unique hf hfates
  have htell : (extractOrderStatuses (eventsOf r)).map (·.fate) = [.rests 1] := by
    rw [hstatuses]
    rfl
  rcases hiff.mp htell with hnil | ⟨sender, -, -, -, hmeets⟩
  · cases hnil
  · exact ⟨s, r, s', sender, hs, hr, hstatuses, hmeets⟩

/-- An IOC order that finds an empty book is discarded, and its status says that it rests. -/
theorem statuses_mislead_ioc : ¬ ∀ (s : AppState) (tx : Transaction) (orders : List OrderWire)
    (t : Timestamp) (r : Except AppError TxResult) (s' : AppState) (fates : List OrderFate),
    s.Reachable → (tx.action = .order orders ∨ tx.action = .spotOrder orders) →
    s.executeTx tx t = .ok (r, s') → s.txFates tx orders t = .ok fates →
    (extractOrderStatuses (eventsOf r)).map (·.fate) = fates := by
  intro h
  obtain ⟨⟨s, r, s'⟩, hrun, htest⟩ := exists_of_test (x := firstOrder "Ioc")
    (p := fun p => decide (firstStatuses "Ioc" p = ([.resting 1], .ok [.failed])))
    (by decide +kernel)
  obtain ⟨hstatuses, hfates⟩ := Prod.mk.inj (of_decide_eq_true htest)
  obtain ⟨hs, hr⟩ := firstOrder_eq_ok hrun
  have htell := h s _ _ _ r s' _ hs (.inl rfl) hr hfates
  rw [hstatuses] at htell
  cases htell

end AppState

end Hypercore
