import Hypercore.Engine.TriggerLife
/-!
# Hypercore.Engine.TriggerRun

Trigger orders over whole runs: the checks end, each order is submitted once, and an
order of a flat position stays out.

**Depth.** A check that takes no order calls nothing back, and one that takes some
leaves fewer behind, so the nesting of checks is bounded by the number of stored
orders (`checkTriggersFuel_stable`). A call then returns if every submission in it
does (`checkTriggersFuel_returns`).

**Batches.** A check takes all orders that fire before it submits the first of them.
What the later ones meet when their turn comes is not looked at again: the mark price
can have moved back, and the position can be flat. Both are shown on closed runs.
-/

namespace Hypercore

open Exec Int128 Trace

namespace Engine

open EngineState

variable {e e' : Engine} {log : TradeLog} {t : Timestamp}

/-! ### Nothing is stored by a check -/

theorem settleFillsLogged_filled {config : MarketConfig} {fills fills' : List Fill}
    (h : settleFillsLogged config fills e = .ok (log, fills', e')) :
    ∀ ev ∈ log, ∃ fill s, ev = .filled fill s := by
  induction fills generalizing e log fills' with
  | nil =>
    obtain ⟨rfl, -, rfl⟩ := logged_inj h
    exact fun _ hev => absurd hev List.not_mem_nil
  | cons fill fills ih =>
    obtain ⟨fill', -, h⟩ := bind_inv h
    obtain ⟨e₁, -, h⟩ := bind_inv h
    obtain ⟨⟨log₂, rest, e₂⟩, h2, h⟩ := bind_inv h
    obtain ⟨rfl, -, rfl⟩ := logged_inj h
    intro ev hev
    rcases List.mem_cons.mp hev with rfl | hev
    · exact ⟨_, _, rfl⟩
    · exact ih h2 ev hev

variable {res : Except Error (Order × List Fill)} {a : AccountAddress} {q : OrderRequest}
  {fuel n : Nat} {m : MarketId}

theorem executeOrderLogged_filled {market : Market} {order : Order}
    (h : e.executeOrderLogged market order = .ok (log, res, e')) :
    ∀ ev ∈ log, ∃ fill s, ev = .filled fill s := by
  have hnil : log = [] → ∀ ev ∈ log, ∃ fill s, ev = TradeEvent.filled fill s := by
    rintro rfl _ hev
    exact absurd hev List.not_mem_nil
  unfold executeOrderLogged at h
  split at h
  · obtain ⟨rfl, -, rfl⟩ := logged_inj h
    exact hnil rfl
  · obtain ⟨⟨r, book⟩, -, h⟩ := bind_inv h
    cases r with
    | error err =>
      obtain ⟨rfl, -, rfl⟩ := logged_inj h
      exact hnil rfl
    | ok r =>
      obtain ⟨⟨log₁, fills, e₁⟩, h1, h⟩ := bind_inv h
      obtain ⟨rfl, -, rfl⟩ := logged_inj h
      obtain ⟨⟨log₂, rest, e₂⟩, h2, h1⟩ := bind_inv h1
      have hlog : log₁ = log₂ := by
        dsimp only at h1
        split at h1
        · obtain ⟨e₃, -, h1⟩ := bind_inv h1
          exact (logged_inj h1).1.symm
        · exact (logged_inj h1).1.symm
      exact hlog ▸ settleFillsLogged_filled h2

/-- A request without a trigger price stores nothing. -/
theorem submitOrderLogged_no_store (hq : q.triggerPrice = none)
    (h : e.submitOrderLogged a q t = .ok (log, res, e')) (o : Order) : .stored o ∉ log := by
  obtain ⟨⟨r, e₁⟩, -, h⟩ := bind_inv h
  cases r with
  | error err =>
    obtain ⟨rfl, -, rfl⟩ := logged_inj h
    exact List.not_mem_nil
  | ok market =>
    obtain ⟨⟨orderId, s⟩, -, h⟩ := bind_inv h
    have hnone : ¬ (Order.new orderId a q t).triggerPrice.isSome := by simp [Order.new, hq]
    dsimp only at h
    rw [if_neg hnone] at h
    intro hmem
    obtain ⟨fill, s, hev⟩ := executeOrderLogged_filled h _ hmem
    cases hev

theorem placeOrderWithLogged_no_store
    {check : Engine → MarketId → Decimal → Timestamp → Exec (TradeLog × Triggered × Engine)}
    (hcheck : ∀ e m p log res e', check e m p t = .ok (log, res, e') → ∀ o, .stored o ∉ log)
    (hq : q.triggerPrice = none) (h : placeOrderWithLogged check e a q t = .ok (log, res, e'))
    (o : Order) : .stored o ∉ log := by
  obtain ⟨⟨log₁, r, e₁⟩, h1, h⟩ := bind_inv h
  have hsubmit := submitOrderLogged_no_store hq h1 o
  cases r with
  | error err =>
    obtain ⟨rfl, -, rfl⟩ := logged_inj h
    exact hsubmit
  | ok of =>
    dsimp only at h
    split at h
    · obtain ⟨rfl, -, rfl⟩ := logged_inj h
      exact hsubmit
    · split at h
      · obtain ⟨rfl, -, rfl⟩ := logged_inj h
        exact hsubmit
      · obtain ⟨⟨log₂, r₂, e₂⟩, h2, h⟩ := bind_inv h
        obtain ⟨rfl, -, rfl⟩ := logged_inj h
        rw [List.mem_append, not_or]
        exact ⟨hsubmit, hcheck _ _ _ _ _ _ h2 o⟩

theorem activateLogged_no_store
    {place : Engine → AccountAddress → OrderRequest → Timestamp →
      Exec (TradeLog × Result (Order × List Fill))}
    (hplace : ∀ e a q log res e', q.triggerPrice = none → place e a q t = .ok (log, res, e') →
      ∀ o, .stored o ∉ log) {os : List Order} {res : Triggered}
    (h : activateLogged place t os e = .ok (log, res, e')) (o : Order) : .stored o ∉ log := by
  induction os generalizing e log res with
  | nil =>
    obtain ⟨rfl, -, rfl⟩ := logged_inj h
    exact List.not_mem_nil
  | cons x os ih =>
    obtain ⟨⟨log₁, r, e₁⟩, h1, h⟩ := bind_inv h
    obtain ⟨⟨log₂, rest, e₂⟩, h2, h⟩ := bind_inv h
    have hlog : log = .submitted x e.state :: (log₁ ++ log₂) ∧ e₂ = e' := by
      cases r with
      | ok placed => exact ⟨(logged_inj h).1.symm, (logged_inj h).2.2⟩
      | error err => exact ⟨(logged_inj h).1.symm, (logged_inj h).2.2⟩
    obtain ⟨rfl, rfl⟩ := hlog
    simp only [List.mem_cons, List.mem_append, reduceCtorEq, false_or, not_or]
    exact ⟨hplace _ _ _ _ _ _ rfl h1 o, ih h2⟩

theorem checkTriggersFuelLogged_no_store {mark : Decimal} {res : Triggered}
    (h : checkTriggersFuelLogged fuel e m mark t = .ok (log, res, e')) (o : Order) :
    .stored o ∉ log := by
  induction fuel generalizing e e' m mark log res o with
  | zero => cases h
  | succ fuel ih =>
    obtain ⟨⟨log₁, r, e₁⟩, h1, h⟩ := bind_inv h
    obtain ⟨rfl, -, rfl⟩ := logged_inj h
    rw [List.mem_append, not_or]
    refine ⟨by simp, activateLogged_no_store (fun e a q log res e' hq h => ?_) h1 o⟩
    exact placeOrderWithLogged_no_store (fun _ _ _ _ _ _ h => ih h) hq h

/-- The trigger orders of the engine agree and are fewer than a bound. -/
structure TriggersBelow (n : Nat) (e : Engine) : Prop where
  agree : e.state.TriggersAgree
  lt : e.state.triggerIds.length < n

/-- What stores nothing has no more orders afterwards. -/
theorem TriggersBelow.follows (h : TriggersBelow n e) (hf : Follows e.state log e'.state)
    (hno : ∀ o, .stored o ∉ log) : TriggersBelow n e' := by
  let D : TriggerDesk := ⟨{o | e.state.Stored o}, 0, {id | id < e.state.nextOrderId}⟩
  obtain ⟨D', hread, hr, -⟩ := hf D ⟨h.agree, fun o => .rfl, fun id hid => hid⟩
  refine ⟨hr.agree, lt_of_le_of_lt (triggerIds_le h.agree hr.agree fun o ho => ?_) h.lt⟩
  by_contra hold
  obtain ⟨ev, hev, D₁, D₂, hs, hn, hy⟩ :=
    hread.crossing (P := fun D => o ∈ D.stored) hold ((hr.stored o).mpr ho)
  exact hno o (hs.stores hn hy ▸ hev)

/-- A submission that fills has no trigger price. -/
theorem triggerPrice_of_fills {order : Order} {fills : List Fill}
    (h : e.submitOrder a q t = .ok (.ok (order, fills), e')) (hne : fills ≠ []) :
    q.triggerPrice = none := by
  obtain ⟨⟨r, e₁⟩, -, h⟩ := bind_inv h
  cases r with
  | error err =>
    obtain ⟨hr, -⟩ := pair_inv h
    cases hr
  | ok market =>
    obtain ⟨⟨orderId, s⟩, -, h⟩ := bind_inv h
    dsimp only at h
    split at h
    · obtain ⟨hr, -⟩ := pair_inv h
      cases hr
      exact absurd rfl hne
    · rename_i hprice
      simpa [Order.new] using hprice

theorem TriggersBelow.submit (h : TriggersBelow n e) (hq : q.triggerPrice = none)
    (hs : e.submitOrder a q t = .ok (res, e')) : TriggersBelow n e' := by
  rw [← submitOrder_erase, map_eq_ok] at hs
  obtain ⟨⟨log, r, e₁⟩, hs, heq⟩ := hs
  obtain ⟨rfl, rfl⟩ := Prod.mk.inj heq
  exact h.follows (submitOrder_follows hs) (submitOrderLogged_no_store hq hs)

theorem TriggersBelow.place (h : TriggersBelow n e) (hq : q.triggerPrice = none)
    (hs : placeOrderWith (checkTriggersFuel fuel) e a q t = .ok (res, e')) :
    TriggersBelow n e' := by
  rw [← placeOrderWith_erase (checkTriggersFuel_erase fuel), map_eq_ok] at hs
  obtain ⟨⟨log, r, e₁⟩, hs, heq⟩ := hs
  obtain ⟨rfl, rfl⟩ := Prod.mk.inj heq
  exact h.follows (placeOrderWith_follows (fun _ _ _ _ _ _ h => checkTriggersFuel_follows h) hs)
    (placeOrderWithLogged_no_store (fun _ _ _ _ _ _ h => checkTriggersFuelLogged_no_store h) hq hs)

/-- A check that takes an order leaves fewer. -/
theorem TriggersBelow.take (h : TriggersBelow (n + 1) e) {mark : Decimal}
    (hne : (e.takeTriggered m mark).1 ≠ []) :
    TriggersBelow n (e.takeTriggered m mark).2 := by
  obtain ⟨hagree, hst, hmem, -⟩ := takeTriggered_spec h.agree m mark
  obtain ⟨o, ho⟩ := List.exists_mem_of_ne_nil _ hne
  have hfires := (hmem o).mp ho
  have hlt : (e.takeTriggered m mark).2.state.triggerIds.length < e.state.triggerIds.length :=
    triggerIds_lt h.agree hagree (fun x hx => ((hst x).mp hx).1) hfires.1
      fun hx => ((hst o).mp hx).2 hfires.2
  exact ⟨hagree, lt_of_lt_of_le hlt (Nat.lt_succ_iff.mp h.lt)⟩

/-! ### Depth -/

theorem placeOrderWith_congr
    {check check' : Engine → MarketId → Decimal → Timestamp → Exec (Triggered × Engine)}
    (hcheck : ∀ e m p, TriggersBelow n e → check e m p t = check' e m p t) (h : TriggersBelow n e)
    (a : AccountAddress) (q : OrderRequest) :
    placeOrderWith check e a q t = placeOrderWith check' e a q t := by
  unfold placeOrderWith
  cases hs : e.submitOrder a q t with
  | error halt => rfl
  | ok r =>
    obtain ⟨r, e₁⟩ := r
    simp only [ok_bind]
    cases r with
    | error err => rfl
    | ok of =>
      dsimp only
      split
      · rfl
      · rename_i hne
        split
        · rfl
        · rw [hcheck _ _ _ (h.submit (triggerPrice_of_fills hs hne) hs)]

theorem activate_congr {fuel' : Nat} (hcheck : ∀ e m p, TriggersBelow n e →
      checkTriggersFuel fuel e m p t = checkTriggersFuel fuel' e m p t) (os : List Order)
    (h : TriggersBelow n e) :
    activate (placeOrderWith (checkTriggersFuel fuel)) t os e =
      activate (placeOrderWith (checkTriggersFuel fuel')) t os e := by
  induction os generalizing e with
  | nil => rfl
  | cons o os ih =>
    unfold activate
    rw [placeOrderWith_congr hcheck h]
    cases hp : placeOrderWith (checkTriggersFuel fuel') e o.owner (triggerRequest o) t with
    | error halt => rfl
    | ok r =>
      simp only [ok_bind]
      rw [ih (h.place rfl hp)]

/-- **Depth.** A bound above the number of stored trigger orders is as good as any larger
one. -/
theorem checkTriggersFuel_stable (k : Nat) (h : TriggersBelow fuel e) (m : MarketId) (p : Decimal) :
    checkTriggersFuel (fuel + k) e m p t = checkTriggersFuel fuel e m p t := by
  induction fuel generalizing e m p with
  | zero => exact absurd h.lt (Nat.not_lt_zero _)
  | succ fuel ih =>
    rw [Nat.add_right_comm]
    unfold checkTriggersFuel
    dsimp only
    by_cases hne : (e.takeTriggered m p).1 = []
    · rw [hne]
      rfl
    · exact activate_congr (fun _ m p h => ih h m p) _ (h.take hne)

/-- The submission returns. -/
def SubmitReturns (t : Timestamp) : SubmitCond := fun e a q => ∃ r, e.submitOrder a q t = .ok r

theorem placeOrderWith_returns
    {check : Engine → MarketId → Decimal → Timestamp → Exec (Triggered × Engine)}
    {checkMeets : Engine → MarketId → Decimal → Timestamp → Prop}
    (hcheck : ∀ e m p, TriggersBelow n e → checkMeets e m p t → ∃ r, check e m p t = .ok r)
    (h : TriggersBelow n e) (hG : PlaceMeets (SubmitReturns t) checkMeets e a q t) :
    ∃ r, placeOrderWith check e a q t = .ok r := by
  obtain ⟨⟨⟨r, e₁⟩, hs⟩, hmeets⟩ := hG
  unfold placeOrderWith
  rw [hs]
  simp only [ok_bind]
  cases r with
  | error err => exact ⟨_, rfl⟩
  | ok of =>
    dsimp only
    split
    · exact ⟨_, rfl⟩
    · rename_i hne
      split
      · exact ⟨_, rfl⟩
      · obtain ⟨r, hr⟩ := hcheck _ _ _ (h.submit (triggerPrice_of_fills hs hne) hs)
          (hmeets _ _ _ hs hne)
        unfold triggerPriceOf at hr
        rw [hr]
        exact ⟨_, rfl⟩

theorem activate_returns
    (hcheck : ∀ e m p, TriggersBelow n e → CheckMeets (SubmitReturns t) fuel e m p t →
      ∃ r, checkTriggersFuel fuel e m p t = .ok r) (os : List Order) (h : TriggersBelow n e)
    (hG : ActivateMeets (placeOrderWith (checkTriggersFuel fuel))
      (PlaceMeets (SubmitReturns t) (CheckMeets (SubmitReturns t) fuel)) t os e) :
    ∃ r, activate (placeOrderWith (checkTriggersFuel fuel)) t os e = .ok r := by
  induction os generalizing e with
  | nil => exact ⟨_, rfl⟩
  | cons o os ih =>
    obtain ⟨⟨r, e₁⟩, hp⟩ := placeOrderWith_returns hcheck h hG.1
    obtain ⟨⟨rest, e₂⟩, hrest⟩ := ih (h.place rfl hp) (hG.2 _ _ hp)
    unfold activate
    simp only [hp, ok_bind, hrest]
    cases r with
    | ok placed => exact ⟨_, rfl⟩
    | error err => exact ⟨_, rfl⟩

/-- **Return.** A check whose submissions return returns. -/
theorem checkTriggersFuel_returns (h : TriggersBelow fuel e) {p : Decimal}
    (hG : CheckMeets (SubmitReturns t) fuel e m p t) :
    ∃ r, checkTriggersFuel fuel e m p t = .ok r := by
  induction fuel generalizing e m p with
  | zero => exact absurd h.lt (Nat.not_lt_zero _)
  | succ fuel ih =>
    unfold checkTriggersFuel
    dsimp only
    by_cases hne : (e.takeTriggered m p).1 = []
    · rw [hne]
      exact ⟨_, rfl⟩
    · exact activate_returns (fun _ _ _ h hG => ih h hG) _ (h.take hne) hG

/-- The calls that can activate trigger orders end: levels of nesting beyond one more than
the stored orders are never reached, and a call returns if every submission in it does. -/
structure ChecksEnd (e : Engine) : Prop where
  checkDepth : ∀ m p t k, checkTriggersFuel (triggerCount e.state + 1 + k) e m p t =
    e.checkTriggers m p t
  checkReturns : ∀ m p t, SubmitsMeet (SubmitReturns t) e (.checkTriggers m p t) →
    ∃ r, e.checkTriggers m p t = .ok r
  placeDepth : ∀ a q t k,
    placeOrderWith (checkTriggersFuel (triggerCount e.state + 1 + k)) e a q t =
      e.placeOrder a q t
  placeReturns : ∀ a q t, SubmitsMeet (SubmitReturns t) e (.placeOrder a q t) →
    ∃ r, e.placeOrder a q t = .ok r

theorem checksEnd (h : e.state.TriggersAgree) : ChecksEnd e := by
  have hb : TriggersBelow (triggerCount e.state + 1) e :=
    ⟨h, Nat.lt_succ_of_le (triggerIds_le_count h)⟩
  refine ⟨fun m p t k => checkTriggersFuel_stable k hb m p,
    fun m p t hG => checkTriggersFuel_returns hb hG, fun a q t k => ?_, fun a q t hG => ?_⟩
  · exact placeOrderWith_congr (fun e m p h => checkTriggersFuel_stable k h m p) hb a q
  · exact placeOrderWith_returns (fun e m p h hG => checkTriggersFuel_returns h hG) hb hG

/-! ### Submissions -/

/-- In every run each trigger order is submitted at most once, after it was stored and a check
took it whose mark price had reached its trigger price; and the checks end. A `TriggerDesk` that
the stores represent reads the log of the run: it uses ids once and submits what was taken. -/
theorem triggers_submitted_once {e₀ : Engine} (hf : Fresh e₀) (h : RunLog e₀ log e) :
    e.state.TriggersAgree ∧ ChecksEnd e ∧ (log.submittedOrders.map (·.id)).Nodup ∧
      ∀ pre o s post, log = pre ++ .submitted o s :: post →
        .stored o ∈ pre ∧ ∃ mark, .taken o mark ∈ pre ∧ o.Fires o.marketId mark.value := by
  obtain ⟨D, hread, hr, hp⟩ := fresh_reads hf h
  refine ⟨hr.agree, checksEnd hr.agree, ?_, ?_⟩
  · have hbal := TriggerDesk.pending_balance hread
    rw [hp, Multiset.add_zero, TriggerDesk.empty, Multiset.zero_add, Multiset.coe_eq_coe] at hbal
    exact (hbal.map _).nodup_iff.mpr (TriggerDesk.taken_once hread TriggerDesk.wf_empty).1
  · rintro pre o s post rfl
    obtain ⟨mark, hm, hfires⟩ := (TriggerDesk.taken_of_submitted hread).resolve_left
      (Multiset.notMem_zero o)
    obtain ⟨D₁, -, hpre, -⟩ := hread.cut
    exact ⟨(TriggerDesk.stored_of_taken hpre hm).resolve_left id, mark, hm, hfires⟩

/-- A trigger request in market 0 for an order that takes what it can. -/
def triggerOrder (side : OrderSide) (direction : TriggerDirection) (trigger price size : Int) :
    OrderRequest :=
  { limitOrder side .ioc price size with
    triggerPrice := some ⟨trigger, 8⟩
    triggerDirection := some direction }

/-- Account 1 is short and has two take-profit orders at one price. A fall of the mark price
takes both; the first buys the position back at a price that moves the mark up again, and
the second is submitted all the same. -/
def twoTakeProfits : List Op :=
  [.deposit 1 1000000000000, .deposit 2 1000000000000, .deposit 3 1000000000000,
    .placeOrder 2 (limitOrder .buy .gtc 6500000000000 100000) 5,
    .placeOrder 1 (limitOrder .sell .gtc 6500000000000 100000) 6,
    .placeOrder 1 (triggerOrder .buy .below 6450000000000 7500000000000 100000) 7,
    .placeOrder 1 (triggerOrder .buy .below 6450000000000 7500000000000 100000) 8,
    .placeOrder 2 (limitOrder .sell .gtc 7500000000000 200000) 9,
    .placeOrder 2 (limitOrder .buy .gtc 6000000000000 100000) 10,
    .placeOrder 3 (limitOrder .sell .gtc 6000000000000 100000) 11]

theorem triggers_submitted_once_twice : ∃ (e₀ e : Engine) (log : TradeLog), Fresh e₀ ∧
    RunLog e₀ log e ∧ log.submittedOrders.length = 2 ∧
    (log.submittedOrders.map (·.id)).Nodup := by
  obtain ⟨⟨log, e⟩, hrun, htest⟩ := exists_of_test (x := btcLog twoTakeProfits)
    (p := fun x => decide (x.1.submittedOrders.length = 2)) (by decide +kernel)
  obtain ⟨e₀, hf, hr⟩ := btcLog_runLog hrun
  exact ⟨e₀, e, log, hf, hr, of_decide_eq_true htest, (triggers_submitted_once hf hr).2.2.1⟩

/-- The event submits a trigger order in a state whose mark price does not fire it. -/
def submittedLate : TradeEvent → Bool
  | .submitted o s => (s.getMarket o.marketId).any fun market =>
      decide (¬ o.Fires o.marketId market.state.markPrice.value)
  | _ => false

/-- A trigger order is submitted after the mark price has moved back over its trigger
price. -/
theorem submitted_off_price : ∃ (e₀ e : Engine) (log : TradeLog) (o : Order) (s : EngineState)
    (market : Market), Fresh e₀ ∧ RunLog e₀ log e ∧ .submitted o s ∈ log ∧
    s.getMarket o.marketId = some market ∧
    ¬ o.Fires o.marketId market.state.markPrice.value := by
  obtain ⟨⟨log, e⟩, hrun, htest⟩ := exists_of_test (x := btcLog twoTakeProfits)
    (p := fun x => x.1.any submittedLate) (by decide +kernel)
  obtain ⟨e₀, hf, hr⟩ := btcLog_runLog hrun
  obtain ⟨ev, hev, hlate⟩ := List.any_eq_true.mp htest
  cases ev with
  | submitted o s =>
    obtain ⟨market, hm, hno⟩ := (Option.any_eq_true _ _).mp hlate
    exact ⟨e₀, e, log, o, s, market, hf, hr, hev, hm, of_decide_eq_true hno⟩
  | _ => cases hlate

/-! ### Lifetime -/

/-- In every run: after an event that cancels a trigger order (a fill that leaves its
position flat, a liquidation of its position, its own cancellation) no check takes it
unless it is stored later; what the checks took is submitted within the run; and an order
that left the store was taken by a check whose mark price fires it, or cancelled by an event
of the run.

The desk is the invariant: every event of the log moves it, so that what the theorem says of
the maps is read off the moves of two sets. -/
theorem cancelled_triggers_stay_out (hr : Reachable e) (h : RunLog e log e') :
    (∀ pre ev post o mark, log = pre ++ ev :: post → ev.Drops o → .taken o mark ∈ post →
      .stored o ∈ post) ∧
    log.submittedOrders.Perm log.takenOrders ∧
    ∀ o, e.state.Stored o → ¬ e'.state.Stored o →
      ∃ ev ∈ log, (∃ mark, ev = .taken o mark ∧ o.Fires o.marketId mark.value) ∨ ev.Drops o := by
  obtain ⟨D, -, hrep, hp⟩ := reachable_represents hr
  obtain ⟨D', hread, hrep', hp'⟩ := runLog_follows h D hrep
  refine ⟨?_, ?_, fun o ho ho' => ?_⟩
  · rintro pre ev post o mark rfl hdrops hm
    exact TriggerDesk.stored_after_drop hread hdrops hm
  · have hbal := TriggerDesk.pending_balance hread
    rwa [hp', hp, Multiset.add_zero, Multiset.zero_add, Multiset.coe_eq_coe] at hbal
  · exact TriggerDesk.removed_by hread ((hrep.stored o).mpr ho) fun hin =>
      ho' ((hrep'.stored o).mp hin)

theorem cancelled_triggers_stay_out_twice : ∃ (e e' : Engine) (log : TradeLog), Reachable e ∧
    RunLog e log e' ∧ log.takenOrders.length = 2 ∧
    log.submittedOrders.Perm log.takenOrders := by
  obtain ⟨⟨log, e'⟩, hrun, htest⟩ := exists_of_test (x := btcLog twoTakeProfits)
    (p := fun x => decide (x.1.takenOrders.length = 2)) (by decide +kernel)
  obtain ⟨e, hf, hr⟩ := btcLog_runLog hrun
  have hreach : Reachable e := ⟨e, hf, .refl⟩
  exact ⟨e, e', log, hreach, hr, of_decide_eq_true htest,
    (cancelled_triggers_stay_out hreach hr).2.1⟩

/-- The test of a position that `Flat` states. -/
theorem flat_of_any {s : EngineState} (h : (s.getPosition a m).any (·.isEmpty)) : s.Flat a m :=
  (Option.any_eq_true _ _).mp h

/-- The event stores an order. -/
def storesOrder (p : Order → Bool) : TradeEvent → Bool
  | .stored o => p o
  | _ => false

/-- The event submits an order that passes a test. -/
def submitsOrder (p : Order → Bool) : TradeEvent → Bool
  | .submitted o _ => p o
  | _ => false

theorem mem_of_storesOrder {log : TradeLog} {o : Order}
    (h : log.any (storesOrder (· = o))) : .stored o ∈ log := by
  obtain ⟨ev, hev, hs⟩ := List.any_eq_true.mp h
  cases ev with
  | stored o' =>
    obtain rfl : o' = o := of_decide_eq_true hs
    exact hev
  | _ => cases hs

/-- After a fill that leaves an owner flat, a trigger of theirs is submitted that was stored
before it. -/
def submitsAfterFlat (x : TradeLog × Engine) : Bool :=
  match x.1.drop 7 with
  | .filled _ s :: post => post.any (submitsOrder fun o =>
      (s.getPosition o.owner o.marketId).any (·.isEmpty) &&
      (x.1.take 7).any (storesOrder (· = o)) && !post.any (storesOrder (· = o)))
  | _ => false

/-- The second of two take-profit orders is submitted after the first has left the position
flat. -/
theorem submitted_after_flat : ∃ (e₀ e : Engine) (pre post : TradeLog) (fill : Fill)
    (s s' : EngineState) (o : Order), Fresh e₀ ∧ RunLog e₀ (pre ++ .filled fill s :: post) e ∧
    .stored o ∈ pre ∧ s.Flat o.owner o.marketId ∧ .submitted o s' ∈ post ∧
    .stored o ∉ post := by
  obtain ⟨⟨log, e⟩, hrun, htest⟩ := exists_of_test (x := btcLog twoTakeProfits)
    (p := submitsAfterFlat) (by decide +kernel)
  obtain ⟨e₀, hf, hr⟩ := btcLog_runLog hrun
  rw [← List.take_append_drop 7 log] at hr
  unfold submitsAfterFlat at htest
  split at htest
  · rename_i fill s post hdrop
    rw [hdrop] at hr
    obtain ⟨ev, hev, hlate⟩ := List.any_eq_true.mp htest
    cases ev with
    | submitted o s' =>
      simp only [submitsOrder, Bool.and_eq_true, Bool.not_eq_true'] at hlate
      obtain ⟨⟨hflat, hpre⟩, hpost⟩ := hlate
      refine ⟨e₀, e, log.take 7, post, fill, s, s', o, hf, hr, mem_of_storesOrder hpre,
        flat_of_any hflat, hev, fun hin => ?_⟩
      have := List.any_eq_false.mp hpost _ hin
      simp [storesOrder] at this
    | _ => cases hlate
  · cases htest

/-- Account 1 is long with a stop order, and a quarter of the position is liquidated. -/
def partialLiquidation : Exec (Engine × TradeLog × Engine) := do
  let e ← btcRun none [.deposit 1 660000000, .deposit 2 1000000000000,
    .placeOrder 2 (limitOrder .sell .gtc 6500000000000 10000000) 5,
    .placeOrder 1 (limitOrder .buy .gtc 6500000000000 10000000) 6,
    .placeOrder 1 { triggerOrder .sell .below 6000000000000 5000000000000 10000000 with
      reduceOnly := true } 7,
    .withdraw 1 624250000]
  let (log, e') ← stepLogged (.processLiquidations .sorted) e
  return (e, log, e')

/-- The event is a liquidation. -/
def liquidates : TradeEvent → Bool
  | .liquidated .. => true
  | _ => false

/-- The one trigger that is stored first is gone in the end, without having been taken, and its
owner has a position throughout. -/
def cancelsInPart (x : Engine × TradeLog × Engine) : Bool :=
  match x.1.state.triggersAt .below 0 6000000000000 with
  | [o] => (x.2.2.state.triggerOrderIndex[o.id]?).isNone &&
      (x.1.state.getPosition o.owner o.marketId).any (!·.isEmpty) &&
      (x.2.2.state.getPosition o.owner o.marketId).any (!·.isEmpty) &&
      x.2.1.all liquidates
  | _ => false

/-- A partial liquidation takes the stop order away from the part that stays. -/
theorem partial_liquidation_cancels : ∃ (e e' : Engine) (log : TradeLog) (o : Order)
    (p p' : Position), Reachable e ∧ RunLog e log e' ∧ e.state.Stored o ∧ ¬ e'.state.Stored o ∧
    e.state.getPosition o.owner o.marketId = some p ∧ p.isEmpty = false ∧
    e'.state.getPosition o.owner o.marketId = some p' ∧ p'.isEmpty = false ∧
    ∀ ev ∈ log, (∀ mark, ev ≠ .taken o mark) ∧ ev ≠ .cancelled o.id := by
  obtain ⟨⟨e, log, e'⟩, hrun, htest⟩ := exists_of_test (x := partialLiquidation)
    (p := cancelsInPart) (by decide +kernel)
  obtain ⟨e₁, h1, hrun⟩ := bind_inv hrun
  obtain ⟨⟨log₁, e₂⟩, h2, hrun⟩ := bind_inv hrun
  obtain ⟨rfl, rfl, rfl⟩ : e₁ = e ∧ log₁ = log ∧ e₂ = e' := by simpa using pure_inv hrun
  have hreach := btcRun_reachable h1
  have hlog : RunLog e₁ log₁ e₂ := Run.Reaches.refl.tail _ trivial
    (bind_eq_ok.mpr ⟨(log₁, e₂), h2, rfl⟩)
  obtain ⟨D, -, hrep, -⟩ := reachable_represents hreach
  obtain ⟨D', -, hrep', -⟩ := runLog_follows hlog D hrep
  unfold cancelsInPart at htest
  split at htest
  · rename_i o ho
    simp only [Bool.and_eq_true, Option.any_eq_true, Bool.not_eq_true', List.all_eq_true,
      Option.isNone_iff_eq_none] at htest
    obtain ⟨⟨⟨hgone, p, hp, hpos⟩, p', hp', hpos'⟩, hall⟩ := htest
    refine ⟨e₁, e₂, log₁, o, p, p', hreach, hlog, ⟨.below, 0, 6000000000000, ?_⟩, fun hin => ?_,
      hp, hpos, hp', hpos', fun ev hev => ⟨?_, ?_⟩⟩
    · rw [ho]
      exact List.mem_singleton_self o
    · exact hrep'.agree.index_iff.mpr ⟨o, hin, rfl⟩ hgone
    · rintro mark rfl
      cases hall _ hev
    · rintro rfl
      cases hall _ hev
  · cases htest

/-- A trigger order is submitted although its position went flat after it was placed, and
another is cancelled although its position is open, without firing or being cancelled. -/
theorem trigger_lifetime_broken : (∃ (e₀ e : Engine) (pre post : TradeLog) (fill : Fill)
    (s s' : EngineState) (o : Order), Fresh e₀ ∧ RunLog e₀ (pre ++ .filled fill s :: post) e ∧
    .stored o ∈ pre ∧ s.Flat o.owner o.marketId ∧ .submitted o s' ∈ post ∧
    .stored o ∉ post) ∧
    ∃ (e e' : Engine) (log : TradeLog) (o : Order) (p p' : Position), Reachable e ∧
    RunLog e log e' ∧ e.state.Stored o ∧ ¬ e'.state.Stored o ∧
    e.state.getPosition o.owner o.marketId = some p ∧ p.isEmpty = false ∧
    e'.state.getPosition o.owner o.marketId = some p' ∧ p'.isEmpty = false ∧
    ∀ ev ∈ log, (∀ mark, ev ≠ .taken o mark) ∧ ev ≠ .cancelled o.id :=
  ⟨submitted_after_flat, partial_liquidation_cancels⟩

end Engine

end Hypercore
