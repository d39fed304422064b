import Hypercore.Engine.TriggerDesk
import Hypercore.Engine.Positions
/-!
# Hypercore.Engine.TriggerLife

The trigger orders of a run.

**Following.** `Follows s log s'` says that a desk which has the stored orders of
`s` can follow the log and then has those of `s'`, with nothing more pending than
before. Every call of the engine follows its log: the maps are updated as the desk
says, and orders taken by a check are all submitted before the check returns.
-/

namespace Hypercore

open Exec Int128 Trace

/-! ### The engine's orders and a desk -/

/-- The desk has the stored trigger orders of the state. -/
structure Represents (s : EngineState) (D : TriggerDesk) : Prop where
  agree : s.TriggersAgree
  stored : ∀ o, o ∈ D.stored ↔ s.Stored o
  used : ∀ id ∈ D.used, id < s.nextOrderId

/-- The log takes the trigger orders of one state to those of another. -/
def Follows (s : EngineState) (log : TradeLog) (s' : EngineState) : Prop :=
  ∀ D, Represents s D → ∃ D', Reads TriggerDesk.Moves D log D' ∧ Represents s' D' ∧
    D'.pending = D.pending

/-- The trigger orders are left alone, and ids are only given out. -/
structure TriggersKept (s s' : EngineState) : Prop where
  above : s'.triggerOrdersAbove = s.triggerOrdersAbove
  below : s'.triggerOrdersBelow = s.triggerOrdersBelow
  index : s'.triggerOrderIndex = s.triggerOrderIndex
  next : s.nextOrderId ≤ s'.nextOrderId

theorem TriggersKept.refl (s : EngineState) : TriggersKept s s := ⟨rfl, rfl, rfl, le_rfl⟩

theorem TriggersKept.trans {s t u : EngineState} (h : TriggersKept s t)
    (h' : TriggersKept t u) : TriggersKept s u :=
  ⟨h'.1.trans h.1, h'.2.trans h.2, h'.3.trans h.3, h.4.trans h'.4⟩

theorem TriggersKept.of_orders {s s' : EngineState} (h : EngineState.OrdersOnly s s') :
    TriggersKept s s' := by
  obtain ⟨_, _, _, rfl⟩ := h
  exact ⟨rfl, rfl, rfl, le_rfl⟩

theorem TriggersKept.represents {s s' : EngineState} {D : TriggerDesk} (h : TriggersKept s s')
    (hr : Represents s D) : Represents s' D := by
  obtain ⟨hagree, hst⟩ := hr.agree.congr h.above h.below h.index h.next
  refine ⟨hagree, fun o => (hr.stored o).trans (hst o).symm, fun id hid => ?_⟩
  exact lt_of_lt_of_le (hr.used id hid) h.next

theorem TriggersKept.follows {s s' : EngineState} (h : TriggersKept s s') : Follows s [] s' :=
  fun D hr => ⟨D, .nil D, h.represents hr, rfl⟩

namespace Follows

variable {s t u : EngineState} {l l' : TradeLog}

theorem refl (s : EngineState) : Follows s [] s := (TriggersKept.refl s).follows

theorem trans (h : Follows s l t) (h' : Follows t l' u) : Follows s (l ++ l') u := by
  intro D hr
  obtain ⟨D₁, h1, hr1, hp1⟩ := h D hr
  obtain ⟨D₂, h2, hr2, hp2⟩ := h' D₁ hr1
  exact ⟨D₂, h1.append h2, hr2, hp2.trans hp1⟩

/-- A step that keeps the trigger orders comes first. -/
theorem after (h : TriggersKept s t) (h' : Follows t l u) : Follows s l u :=
  h.follows.trans h'

/-- A step that keeps the trigger orders comes last. -/
theorem before (h : Follows s l t) (h' : TriggersKept t u) : Follows s l u := by
  simpa using h.trans h'.follows

/-- One event that takes the stored orders to a subset of them. -/
theorem of_drops {ev : TradeEvent} (hagree : s.TriggersAgree → t.TriggersAgree ∧
      ∀ o, t.Stored o ↔ s.Stored o ∧ ¬ ev.Drops o)
    (hnext : s.nextOrderId ≤ t.nextOrderId)
    (hmoves : ∀ D : TriggerDesk, D.Moves ev
      { D with stored := {o | o ∈ D.stored ∧ ¬ ev.Drops o} }) : Follows s [ev] t := by
  intro D hr
  obtain ⟨ha, hst⟩ := hagree hr.agree
  refine ⟨_, .single (hmoves D), ⟨ha, fun o => ?_, fun id hid => ?_⟩, rfl⟩
  · show o ∈ D.stored ∧ ¬ ev.Drops o ↔ _
    rw [hst, hr.stored]
  · exact lt_of_lt_of_le (hr.used id hid) hnext

end Follows

namespace Engine

open EngineState

variable {e e' : Engine} {log : TradeLog} {t : Timestamp}

/-! ### Fills -/

/-- Positions are not touched by trigger updates. -/
theorem TriggersOnly.getPosition {s s' : EngineState} (h : TriggersOnly s s')
    (a : AccountAddress) (m : MarketId) : s'.getPosition a m = s.getPosition a m := by
  obtain ⟨_, _, _, rfl⟩ := h
  rfl

/-- Cancelling the triggers of a position if it is flat. -/
theorem cancelTriggersIfFlat_spec {s : EngineState} (hs : s.TriggersAgree) (a : AccountAddress)
    (m : MarketId) : (cancelTriggersIfFlat s a m).TriggersAgree ∧
      ∀ o, (cancelTriggersIfFlat s a m).Stored o ↔
        s.Stored o ∧ ¬ (o.owner = a ∧ o.marketId = m ∧ s.Flat a m) := by
  have hkeep : ¬ s.Flat a m → s.TriggersAgree ∧
      ∀ o, s.Stored o ↔ s.Stored o ∧ ¬ (o.owner = a ∧ o.marketId = m ∧ s.Flat a m) := by
    intro hflat
    exact ⟨hs, fun o => (and_iff_left fun h => hflat h.2.2).symm⟩
  unfold cancelTriggersIfFlat
  split
  · rename_i hp
    refine hkeep ?_
    rintro ⟨p, hp', -⟩
    rw [hp] at hp'
    cases hp'
  · rename_i p hp
    split
    · rename_i hempty
      obtain ⟨hagree, hst⟩ := hs.cancel a m
      refine ⟨hagree, fun o => ?_⟩
      have hflat : s.Flat a m := ⟨p, hp, hempty⟩
      rw [hst, iff_true_intro hflat, and_true]
    · rename_i hempty
      refine hkeep ?_
      rintro ⟨p', hp', hempty'⟩
      obtain rfl := Option.some.inj (hp.symm.trans hp')
      exact hempty hempty'

theorem nextOrderId_triggersOnly {s s' : EngineState} (h : TriggersOnly s s') :
    s'.nextOrderId = s.nextOrderId := by
  obtain ⟨_, _, _, rfl⟩ := h
  rfl

/-- The end of a fill drops the trigger orders of its parties whose position is flat. -/
theorem cancelFlat_follows (s : EngineState) (fill : Fill) {s' : EngineState}
    (h : s' = cancelTriggersIfFlat (cancelTriggersIfFlat s fill.taker fill.marketId) fill.maker
      fill.marketId) : Follows s [.filled fill s'] s' := by
  have honly₁ := cancelTriggersIfFlat_only (s := s) (a := fill.taker) (m := fill.marketId)
  have honly : TriggersOnly s s' := h ▸ honly₁.trans cancelTriggersIfFlat_only
  refine .of_drops (fun hs => ?_) (nextOrderId_triggersOnly honly).ge fun D => .filled _ _
  obtain ⟨hs₁, hst₁⟩ := cancelTriggersIfFlat_spec hs fill.taker fill.marketId
  obtain ⟨hs₂, hst₂⟩ := cancelTriggersIfFlat_spec hs₁ fill.maker fill.marketId
  rw [← h] at hs₂ hst₂
  -- no position changes on the way
  have hflat : ∀ a, s'.Flat a fill.marketId ↔ s.Flat a fill.marketId := fun a => by
    unfold Flat
    rw [TriggersOnly.getPosition honly]
  have hflat₁ : ∀ a, (cancelTriggersIfFlat s fill.taker fill.marketId).Flat a fill.marketId ↔
      s.Flat a fill.marketId := fun a => by
    unfold Flat
    rw [TriggersOnly.getPosition honly₁]
  refine ⟨hs₂, fun o => ?_⟩
  rw [hst₂, hst₁, hflat₁]
  simp only [TradeEvent.Drops, hflat]
  constructor
  · rintro ⟨⟨h, hta⟩, hma⟩
    refine ⟨h, ?_⟩
    rintro ⟨hta' | hma', hm, hf⟩
    · exact hta ⟨hta', hm, hta' ▸ hf⟩
    · exact hma ⟨hma', hm, hma' ▸ hf⟩
  · rintro ⟨h, hno⟩
    refine ⟨⟨h, ?_⟩, ?_⟩
    · rintro ⟨ho, hm, hf⟩
      exact hno ⟨.inl ho, hm, ho ▸ hf⟩
    · rintro ⟨ho, hm, hf⟩
      exact hno ⟨.inr ho, hm, ho ▸ hf⟩

theorem applyFill_follows {fill : Fill} (h : e.applyFill fill = .ok e') :
    Follows e.state [.filled fill e'.state] e'.state := by
  obtain ⟨s₁, s₂, s₃, s₄, u, h1, h2, h3, h4, rfl⟩ := applyFill_steps h
  have hkept : TriggersKept e.state (s₄.recordFill fill) := by
    obtain ⟨p₁, p₂, _, _, hm, ht, ho⟩ := fillPositions_steps h1
    obtain ⟨_, rfl⟩ := modifyPosition_only hm
    obtain ⟨_, rfl⟩ := modifyPosition_only ht
    obtain ⟨_, rfl⟩ := modifyMarket_only ho
    obtain ⟨_, rfl⟩ := modifyAccount_only h2
    obtain ⟨_, rfl⟩ := modifyAccount_only h3
    obtain ⟨_, rfl⟩ := fillMarket_only h4
    exact ⟨rfl, rfl, rfl, le_rfl⟩
  exact .after hkept (cancelFlat_follows _ fill rfl)

variable {fills fills' : List Fill} {market : Market} {D : TriggerDesk} {e₀ : Engine}

theorem settleFills_follows {config : MarketConfig}
    (h : settleFillsLogged config fills e = .ok (log, fills', e')) :
    Follows e.state log e'.state := by
  induction fills generalizing e log fills' with
  | nil =>
    obtain ⟨rfl, -, rfl⟩ := logged_inj h
    exact .refl _
  | cons fill fills ih =>
    obtain ⟨fill', -, h⟩ := bind_inv h
    obtain ⟨e₁, h1, h⟩ := bind_inv h
    obtain ⟨⟨log₂, rest, e₂⟩, h2, h⟩ := bind_inv h
    obtain ⟨rfl, -, rfl⟩ := logged_inj h
    exact (applyFill_follows h1).trans (ih h2)

/-! ### Orders -/

theorem settleOrder_follows {updated : Order}
    (h : e.settleOrderLogged market updated fills = .ok (log, fills', e')) :
    Follows e.state log e'.state := by
  obtain ⟨⟨log₁, rest, e₁⟩, h1, h⟩ := bind_inv h
  have hsync : TriggersKept e.state (syncMakers e.state updated.marketId fills) :=
    .of_orders (syncMakers_only _ _ _)
  have hfills := Follows.after hsync (settleFills_follows h1)
  dsimp only at h
  split at h
  · obtain ⟨e₂, h2, h⟩ := bind_inv h
    obtain ⟨rfl, -, rfl⟩ := logged_inj h
    obtain ⟨s₂, hs, rfl⟩ := onState_eq_ok h2
    exact hfills.before (.of_orders (addOrder_only hs))
  · obtain ⟨rfl, -, rfl⟩ := logged_inj h
    exact hfills

variable {res : Except Error (Order × List Fill)} {a : AccountAddress} {q : OrderRequest}
  {m : MarketId} {ord : HashOrder}

theorem executeOrder_follows {order : Order}
    (h : e.executeOrderLogged market order = .ok (log, res, e')) :
    Follows e.state log e'.state := by
  unfold executeOrderLogged at h
  split at h
  · obtain ⟨rfl, -, rfl⟩ := logged_inj h
    exact .refl _
  · obtain ⟨⟨r, book⟩, -, h⟩ := bind_inv h
    have hbook : TriggersKept e.state (e.state.setOrderbook order.marketId book) :=
      ⟨rfl, rfl, rfl, le_rfl⟩
    cases r with
    | error err =>
      obtain ⟨rfl, -, rfl⟩ := logged_inj h
      exact hbook.follows
    | ok r =>
      obtain ⟨⟨log₁, fills, e₁⟩, h1, h⟩ := bind_inv h
      obtain ⟨rfl, -, rfl⟩ := logged_inj h
      exact .after hbook (settleOrder_follows h1)

theorem prepareOrder_kept {r : Except Error Market} (h : e.prepareOrder a q = .ok (r, e')) :
    TriggersKept e.state e'.state := by
  obtain ⟨_, _, rfl⟩ := prepareOrder_only h
  exact ⟨rfl, rfl, rfl, le_rfl⟩

/-- Storing an order under the id just given out. -/
theorem addTriggerOrder_follows {s : EngineState} {o : Order} (hid : o.id = s.nextOrderId)
    (hprice : o.triggerPrice.isSome) :
    Follows s (if o.triggerDirection.isSome then [.stored o] else [])
      ({ s with nextOrderId := s.nextOrderId + 1 }.addTriggerOrder o) := by
  intro D hr
  have hkept : TriggersKept s { s with nextOrderId := s.nextOrderId + 1 } :=
    ⟨rfl, rfl, rfl, (Nat.lt_succ_self _).le⟩
  have hr₁ := hkept.represents hr
  obtain ⟨hagree, hst⟩ := hr₁.agree.add (o := o)
    (fun o' ho' => by
      have hlt := hr.agree.lt_next (((hr.stored o').symm.trans (hr₁.stored o')).mpr ho')
      exact hid ▸ hlt.ne)
    (by
      rw [hid]
      exact Nat.lt_succ_self _)
  obtain ⟨_, _, _, honly⟩ := addTriggerOrder_only
    (s := { s with nextOrderId := s.nextOrderId + 1 }) o
  have hnext : ({ s with nextOrderId := s.nextOrderId + 1 }.addTriggerOrder o).nextOrderId =
      s.nextOrderId + 1 := by rw [honly]
  by_cases hdir : o.triggerDirection.isSome
  · rw [if_pos hdir]
    refine ⟨_, .single (.stored o fun hused => ?_), ⟨hagree, fun x => ?_, ?_⟩, rfl⟩
    · exact absurd (hid ▸ hr.used _ hused) (lt_irrefl _)
    · rw [hst, ← hr₁.stored x]
      simp [hprice, hdir, or_comm]
    · rw [hnext]
      rintro id (rfl | hid')
      · rw [hid]
        exact Nat.lt_succ_self _
      · exact (hr.used id hid').trans (Nat.lt_succ_self _)
  · rw [if_neg hdir]
    refine ⟨D, .nil D, ⟨hagree, fun x => ?_, ?_⟩, rfl⟩
    · rw [hst, ← hr₁.stored x]
      simp [hdir]
    · rw [hnext]
      exact fun id hid' => (hr.used id hid').trans (Nat.lt_succ_self _)

theorem submitOrder_follows (h : e.submitOrderLogged a q t = .ok (log, res, e')) :
    Follows e.state log e'.state := by
  obtain ⟨⟨r, e₁⟩, h1, h⟩ := bind_inv h
  have hprep := prepareOrder_kept h1
  cases r with
  | error err =>
    obtain ⟨rfl, -, rfl⟩ := logged_inj h
    exact hprep.follows
  | ok market =>
    obtain ⟨⟨orderId, s⟩, hid, h⟩ := bind_inv h
    obtain ⟨rfl, rfl⟩ := takeOrderId_spec hid
    dsimp only at h
    split at h
    · rename_i hprice
      obtain ⟨rfl, -, rfl⟩ := logged_inj h
      exact .after hprep (addTriggerOrder_follows rfl hprice)
    · have hnext : TriggersKept e₁.state
          { e₁.state with nextOrderId := e₁.state.nextOrderId + 1 } :=
        ⟨rfl, rfl, rfl, (Nat.lt_succ_self _).le⟩
      exact .after (hprep.trans hnext) (executeOrder_follows h)

/-! ### Checks -/

theorem placeOrderWith_follows
    {check : Engine → MarketId → Decimal → Timestamp → Exec (TradeLog × Triggered × Engine)}
    (hcheck : ∀ e m p log res e', check e m p t = .ok (log, res, e') → Follows e.state log e'.state)
    (h : placeOrderWithLogged check e a q t = .ok (log, res, e')) :
    Follows e.state log e'.state := by
  obtain ⟨⟨log₁, r, e₁⟩, h1, h⟩ := bind_inv h
  have hsubmit := submitOrder_follows h1
  have hdone : ∀ {r' : Except Error (Order × List Fill)},
      (pure (log₁, r', e₁) : Exec _) = .ok (log, res, e') → Follows e.state log e'.state := by
    intro r' h
    obtain ⟨rfl, -, rfl⟩ := logged_inj h
    exact hsubmit
  cases r with
  | error err => exact hdone h
  | ok of =>
    dsimp only at h
    split at h
    · exact hdone h
    · split at h
      · exact hdone h
      · obtain ⟨⟨log₂, r₂, e₂⟩, h2, h⟩ := bind_inv h
        obtain ⟨rfl, -, rfl⟩ := logged_inj h
        exact hsubmit.trans (hcheck _ _ _ _ _ _ h2)

/-- Activating the orders that are pending leaves none of them pending. -/
theorem activate_reads
    {place : Engine → AccountAddress → OrderRequest → Timestamp →
      Exec (TradeLog × Result (Order × List Fill))}
    (hplace : ∀ e a q log res e', place e a q t = .ok (log, res, e') → Follows e.state log e'.state)
    {os : List Order} {res : Triggered} (h : activateLogged place t os e = .ok (log, res, e'))
    {P : Multiset Order} (hr : Represents e.state D) (hp : D.pending = (os : Multiset Order) + P) :
    ∃ D', Reads TriggerDesk.Moves D log D' ∧ Represents e'.state D' ∧ D'.pending = P := by
  induction os generalizing e log res D with
  | nil =>
    obtain ⟨rfl, -, rfl⟩ := logged_inj h
    exact ⟨D, .nil D, hr, by simpa using hp⟩
  | cons o os ih =>
    obtain ⟨⟨log₁, r, e₁⟩, h1, h⟩ := bind_inv h
    obtain ⟨⟨log₂, rest, e₂⟩, h2, h⟩ := bind_inv h
    have hres : log = .submitted o e.state :: (log₁ ++ log₂) ∧ e' = e₂ := by
      cases r with
      | ok placed =>
        obtain ⟨rfl, -, rfl⟩ := logged_inj h
        exact ⟨rfl, rfl⟩
      | error err =>
        obtain ⟨rfl, -, rfl⟩ := logged_inj h
        exact ⟨rfl, rfl⟩
    obtain ⟨rfl, rfl⟩ := hres
    rw [← Multiset.cons_coe, Multiset.cons_add] at hp
    have hr₀ : Represents e.state { D with pending := (os : Multiset Order) + P } :=
      ⟨hr.agree, hr.stored, hr.used⟩
    obtain ⟨D₁, hd1, hr1, hp1⟩ := hplace _ _ _ _ _ _ h1 _ hr₀
    obtain ⟨D₂, hd2, hr2, hp2⟩ := ih h2 hr1 hp1
    exact ⟨D₂, .cons (.submitted o e.state _ hp) (hd1.append hd2), hr2, hp2⟩

/-- A check moves the orders that fire from the store to the pending ones. -/
theorem takeTriggered_reads (m : MarketId) (mark : Decimal) (hr : Represents e.state D) :
    ∃ D', Reads TriggerDesk.Moves D
        ((e.takeTriggered m mark).1.map (.taken · mark)) D' ∧
      Represents (e.takeTriggered m mark).2.state D' ∧
      D'.pending = ((e.takeTriggered m mark).1 : Multiset Order) + D.pending := by
  obtain ⟨hagree, hst, hmem, hnd⟩ := takeTriggered_spec hr.agree m mark
  obtain ⟨s₁, honly, hs₁⟩ := takeTriggered_only e m mark
  -- taking one order after the other
  have hread : ∀ (os : List Order) (D : TriggerDesk), (os.map (·.id)).Nodup →
      (∀ o ∈ os, o ∈ D.stored ∧ o.Fires o.marketId mark.value) →
      Reads TriggerDesk.Moves D (os.map (.taken · mark))
        { D with stored := {o | o ∈ D.stored ∧ o ∉ os}, pending := (os : Multiset Order) +
          D.pending } := by
    intro os
    induction os with
    | nil =>
      intro D _ _
      simpa using Reads.nil D
    | cons o os ih =>
      intro D hnd hos
      rw [List.map_cons, List.nodup_cons] at hnd
      have hne : ∀ x ∈ os, x ≠ o := fun x hx heq => hnd.1 (heq ▸ List.mem_map_of_mem hx)
      refine .cons (.taken o mark (hos o (.head _)).1 (hos o (.head _)).2) ?_
      have h := ih { D with stored := D.stored \ {o}, pending := o ::ₘ D.pending } hnd.2
        fun x hx => ⟨⟨(hos x (.tail _ hx)).1, hne x hx⟩, (hos x (.tail _ hx)).2⟩
      have hset : {x | x ∈ D.stored \ {o} ∧ x ∉ os} = {x | x ∈ D.stored ∧ x ∉ o :: os} := by
        ext x
        simp only [Set.mem_sdiff, Set.mem_singleton_iff, Set.mem_ofPred_eq, List.mem_cons, not_or,
          and_assoc]
      rw [hset, Multiset.add_cons, ← Multiset.cons_add, Multiset.cons_coe] at h
      exact h
  refine ⟨_, hread _ D hnd fun o ho => ?_, ⟨hagree, fun o => ?_, fun id hid => ?_⟩, rfl⟩
  · obtain ⟨ho, hf⟩ := (hmem o).mp ho
    refine ⟨(hr.stored o).mpr ho, ?_⟩
    obtain ⟨d, hm, hp⟩ := hf
    exact ⟨d, rfl, hp⟩
  · show o ∈ D.stored ∧ o ∉ (e.takeTriggered m mark).1 ↔ _
    rw [hst, hmem, hr.stored]
    constructor
    · rintro ⟨h, hno⟩
      exact ⟨h, fun hf => hno ⟨h, hf⟩⟩
    · rintro ⟨h, hno⟩
      exact ⟨h, fun hf => hno hf.2⟩
  · rw [hs₁]
    exact (nextOrderId_triggersOnly honly).symm ▸ hr.used id hid

theorem checkTriggersFuel_follows {fuel : Nat} {mark : Decimal} {res : Triggered}
    (h : checkTriggersFuelLogged fuel e m mark t = .ok (log, res, e')) :
    Follows e.state log e'.state := by
  induction fuel generalizing e e' m mark log res with
  | zero => cases h
  | succ fuel ih =>
    obtain ⟨⟨log₁, r, e₁⟩, h1, h⟩ := bind_inv h
    obtain ⟨rfl, -, rfl⟩ := logged_inj h
    intro D hr
    obtain ⟨D₁, hd1, hr1, hp1⟩ := takeTriggered_reads m mark hr
    obtain ⟨D₂, hd2, hr2, hp2⟩ := activate_reads
      (fun _ _ _ _ _ _ h => placeOrderWith_follows (fun _ _ _ _ _ _ h => ih h) h) h1 hr1 hp1
    exact ⟨D₂, hd1.append hd2, hr2, hp2⟩

/-! ### Block-end passes -/

theorem processFunding_kept {rates : List (MarketId × Decimal)}
    (h : e.processFunding t = .ok (rates, e')) : TriggersKept e.state e'.state := by
  obtain ⟨⟨rates₁, e₁⟩, h1, h⟩ := bind_inv h
  obtain ⟨e₂, h2, h⟩ := bind_inv h
  obtain ⟨-, rfl⟩ := pair_inv h
  have hmarkets : TriggersKept e.state e₁.state := by
    refine foldlM_rel
      (R := fun x y : List (MarketId × Decimal) × Engine => TriggersKept x.2.state y.2.state) h1
      (fun _ => .refl _) (fun _ _ _ => .trans) fun m _ x y hs => ?_
    rcases settleMarket_cases hs with ⟨-, hy⟩ | ⟨_, _, s, -, -, hs, -, hy⟩
    · rw [hy]
      exact .refl _
    · obtain ⟨_, rfl⟩ := modifyMarket_only hs
      rw [hy]
      exact ⟨rfl, rfl, rfl, le_rfl⟩
  refine hmarkets.trans (foldlM_rel (R := fun x y : Engine => TriggersKept x.state y.state) h2
    (fun _ => .refl _) (fun _ _ _ => .trans) fun mr _ x y hs => ?_)
  unfold settleHolders at hs
  split at hs
  · obtain rfl := pure_inv hs
    exact .refl _
  · obtain ⟨z, hz, hs⟩ := bind_inv hs
    obtain rfl := pure_inv hs
    have hfold : TriggersKept x.state z.state := by
      refine foldlM_rel (R := fun x y : Engine => TriggersKept x.state y.state) hz
        (fun _ => .refl _) (fun _ _ _ => .trans) fun a _ v w hvw => ?_
      obtain ⟨_, _, _, _, rfl⟩ := settleAccount_writes hvw
      exact ⟨rfl, rfl, rfl, le_rfl⟩
    exact hfold.trans ⟨rfl, rfl, rfl, le_rfl⟩

theorem settleResidual_kept {b size price : Decimal} {isBuy : Bool}
    (h : settleResidual ord e m b size price isBuy = .ok e') :
    TriggersKept e.state e'.state := by
  obtain ⟨r, -, rfl | ⟨-, -, hadl⟩⟩ := settleResidual_cases h
  · exact ⟨rfl, rfl, rfl, le_rfl⟩
  · obtain ⟨_, rfl⟩ := triggerAdl_only hadl
    exact ⟨rfl, rfl, rfl, le_rfl⟩

/-- A liquidation drops the trigger orders of the position, also when part of it stays. -/
theorem applyLiquidation_follows {size price : Decimal} (hpos : e.state.getPosition a m ≠ none)
    (h : applyLiquidation ord e a m size price = .ok e') :
    Follows e.state [.liquidated a m size e.state e'.state] e'.state := by
  unfold applyLiquidation at h
  dsimp only at h
  split at h
  · rename_i hnone
    exact absurd hnone hpos
  · obtain ⟨b, -, h⟩ := bind_inv h
    obtain ⟨e₁, h1, h⟩ := bind_inv h
    obtain ⟨s₂, h2, h⟩ := bind_inv h
    obtain rfl := pure_inv h
    have hkept : TriggersKept e.state e₁.state := by
      cases b with
      | none =>
        obtain rfl := pure_inv h1
        exact .refl _
      | some b => exact settleResidual_kept h1
    have hkept₂ : TriggersKept e₁.state s₂ := by
      obtain ⟨_, rfl⟩ := modifyPosition_only h2
      exact ⟨rfl, rfl, rfl, le_rfl⟩
    refine .after (hkept.trans hkept₂) (.of_drops (fun hs => hs.cancel a m) ?_
      fun D => .liquidated _ _ _ _ _)
    exact (nextOrderId_triggersOnly cancelTriggerOrdersForPosition_only).ge

theorem processLiquidations_follows {l : Liquidations}
    (h : e.processLiquidationsLogged ord = .ok (log, l, e')) : Follows e.state log e'.state := by
  obtain ⟨us, -, h⟩ := bind_inv h
  refine foldlM_induction
    (P := fun x : TradeLog × Liquidations × Engine => Follows e.state x.1 x.2.2.state) h
    (.refl _) ?_
  rintro pair - ⟨log₁, l₁, e₁⟩ ⟨log₂, l₂, e₂⟩ h1 hs
  unfold liquidateLogged at hs
  dsimp only at hs
  split at hs
  · rename_i market position _ hpos
    obtain ⟨r, -, hs⟩ := bind_inv hs
    cases r with
    | none =>
      obtain ⟨rfl, -, rfl⟩ := logged_inj hs
      exact h1
    | some q =>
      obtain ⟨e₃, h3, hs⟩ := bind_inv hs
      obtain ⟨rfl, -, rfl⟩ := logged_inj hs
      exact h1.trans (applyLiquidation_follows (by simp [hpos]) h3)
  · obtain ⟨rfl, -, rfl⟩ := logged_inj hs
    exact h1

/-! ### Operations -/

theorem cancelTrigger_follows (s : EngineState) (id : OrderId) :
    Follows s [.cancelled id] (s.removeTriggerOrder id).2 :=
  .of_drops (fun hs => hs.remove id)
    (nextOrderId_triggersOnly (removeTriggerOrder_only id)).ge fun _ => .cancelled _

/-- The other operations leave the trigger orders alone. -/
theorem step_kept {op : Op} (hs : silent op = true) (h : step op e = .ok e') :
    TriggersKept e.state e'.state := by
  cases op with
  | placeOrder a q t => cases hs
  | checkTriggers m p t => cases hs
  | cancelTrigger id => cases hs
  | processLiquidations ord => cases hs
  | cancelOrder a m id =>
    obtain rfl := pure_inv h
    unfold cancelOrder
    split
    · exact .refl _
    · split
      · exact .refl _
      · exact .of_orders (removeOrder_only _ m id)
  | cancelAllOrders a m =>
    obtain rfl := pure_inv h
    exact .of_orders cancelRecords_only
  | updateLeverage a m l =>
    obtain ⟨⟨r, e₁⟩, h1, h⟩ := bind_inv h
    obtain rfl := pure_inv h
    obtain ⟨_, rfl⟩ := updateLeverage_only h1
    exact ⟨rfl, rfl, rfl, le_rfl⟩
  | setMarginMode a mode =>
    obtain rfl := pure_inv h
    unfold setMarginMode
    split
    · exact .refl _
    · exact ⟨rfl, rfl, rfl, le_rfl⟩
  | processFunding t =>
    obtain ⟨⟨rates, e₁⟩, h1, h⟩ := bind_inv h
    obtain rfl := pure_inv h
    exact processFunding_kept h1
  | deposit a n =>
    obtain ⟨s, hs, rfl⟩ := onState_eq_ok (f := (·.deposit a n)) h
    obtain ⟨_, rfl⟩ := deposit_only hs
    exact ⟨rfl, rfl, rfl, le_rfl⟩
  | withdraw a n =>
    obtain ⟨⟨r, s⟩, hs, h⟩ := bind_inv h
    obtain rfl := pure_inv h
    obtain ⟨_, rfl⟩ := withdraw_only hs
    exact ⟨rfl, rfl, rfl, le_rfl⟩
  | setUnified u =>
    obtain rfl := pure_inv h
    exact .refl _

theorem placeOrder_follows (h : e.placeOrderLogged a q t = .ok (log, res, e')) :
    Follows e.state log e'.state :=
  placeOrderWith_follows (fun _ _ _ _ _ _ h => checkTriggersFuel_follows h) h

/-- **One operation follows its log.** -/
theorem step_follows {op : Op} (h : stepLogged op e = .ok (log, e')) :
    Follows e.state log e'.state := by
  have hquiet : silent op = true → Follows e.state log e'.state := by
    intro hs
    rw [stepLogged_of_silent hs] at h
    obtain ⟨e₁, h1, h⟩ := bind_inv h
    obtain ⟨rfl, rfl⟩ := pair_inv h
    exact (step_kept hs h1).follows
  cases op with
  | placeOrder a q t =>
    obtain ⟨⟨log₁, r, e₁⟩, h1, h⟩ := bind_inv h
    obtain ⟨rfl, rfl⟩ := pair_inv h
    exact placeOrder_follows h1
  | checkTriggers m p t =>
    obtain ⟨⟨log₁, r, e₁⟩, h1, h⟩ := bind_inv h
    obtain ⟨rfl, rfl⟩ := pair_inv h
    exact checkTriggersFuel_follows h1
  | processLiquidations ord =>
    obtain ⟨⟨log₁, r, e₁⟩, h1, h⟩ := bind_inv h
    obtain ⟨rfl, rfl⟩ := pair_inv h
    exact processLiquidations_follows h1
  | cancelTrigger id =>
    obtain ⟨e₁, h1, h⟩ := bind_inv h
    obtain ⟨rfl, rfl⟩ := pair_inv h
    obtain rfl := pure_inv h1
    exact cancelTrigger_follows _ id
  | _ => exact hquiet rfl

/-! ### Runs -/

theorem fresh_represents (h : Fresh e₀) : Represents e₀.state .empty := by
  refine h.rule (P := (Represents · .empty)) ⟨.new, fun o => ⟨fun h => h.elim, ?_⟩,
    fun _ h => h.elim⟩ fun s config price t ih => ?_
  · rintro ⟨d, m, p, ho⟩
    cases d <;> simp [triggersAt, triggers, EngineState.new] at ho
  · have hkept : TriggersKept s (s.addMarket (.new config price t)) := ⟨rfl, rfl, rfl, le_rfl⟩
    exact hkept.represents ih

/-- **Runs follow their log.** -/
theorem runLog_follows (h : RunLog e₀ log e) :
    Follows e₀.state log e.state :=
  h.invariant (P := fun s => Follows e₀.state s.1 s.2.state) (.refl _) fun s op s' hs _ hstep => by
    obtain ⟨⟨l, e₁⟩, h1, hstep⟩ := bind_inv hstep
    obtain rfl := pure_inv hstep
    exact hs.trans (step_follows h1)

/-- From a fresh engine a desk reads the log, and nothing is pending at the end. -/
theorem fresh_reads (hf : Fresh e₀) (h : RunLog e₀ log e) :
    ∃ D, Reads TriggerDesk.Moves .empty log D ∧ Represents e.state D ∧ D.pending = 0 :=
  runLog_follows h _ (fresh_represents hf)

/-- A reachable engine has a desk with proper ids and nothing pending. -/
theorem reachable_represents (h : Reachable e) :
    ∃ D : TriggerDesk, D.WF ∧ Represents e.state D ∧ D.pending = 0 := by
  obtain ⟨e₀, hf, hr⟩ := h
  obtain ⟨log, hlog⟩ := runLog_iff.mpr hr
  obtain ⟨D, hread, hrep, hp⟩ := fresh_reads hf hlog
  exact ⟨D, TriggerDesk.reads_wf hread TriggerDesk.wf_empty, hrep, hp⟩

end Engine

end Hypercore
