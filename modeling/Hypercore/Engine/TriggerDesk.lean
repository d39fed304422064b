import Hypercore.Engine.EventLog
import Hypercore.Engine.TriggerStore
import Hypercore.Lib.Trace
import Mathlib.Data.Multiset.AddSub
/-!
# Hypercore.Engine.TriggerDesk

What the life of trigger orders is, without the maps and the recursion.

A *desk* holds a set of stored orders, and the orders that were taken out to be
submitted. An event moves it: storing uses an id that was never used, a check takes
an order that its mark price fires, a submission takes an order from those waiting,
and a cancellation, a fill that leaves a position flat or a liquidation drops orders.
A log that a desk can follow therefore submits each order once, after a check took
it, and every order that left was taken or dropped by some event of the log.
-/

namespace Hypercore

open Trace

/-- The account has a position in the market, and it is flat. -/
def EngineState.Flat (s : EngineState) (a : AccountAddress) (m : MarketId) : Prop :=
  ∃ p, s.getPosition a m = some p ∧ p.isEmpty = true

namespace TradeEvent

/-- The trigger orders that an event cancels. -/
def Drops : TradeEvent → Order → Prop
  | .filled fill s, o => (o.owner = fill.taker ∨ o.owner = fill.maker) ∧
      o.marketId = fill.marketId ∧ s.Flat o.owner fill.marketId
  | .cancelled id, o => o.id = id
  | .liquidated a m _ _ _, o => o.owner = a ∧ o.marketId = m
  | _, _ => False

/-- The order that a check took. -/
def takenOrder : TradeEvent → Option Order
  | .taken o _ => some o
  | _ => none

/-- The order that was submitted. -/
def submittedOrder : TradeEvent → Option Order
  | .submitted o _ => some o
  | _ => none

end TradeEvent

namespace TradeLog

/-- The orders that checks took, in order. -/
def takenOrders (log : TradeLog) : List Order := log.filterMap TradeEvent.takenOrder

/-- The trigger orders that were submitted, in order. -/
def submittedOrders (log : TradeLog) : List Order := log.filterMap TradeEvent.submittedOrder

end TradeLog

/-- Stored trigger orders, and those taken out and not yet submitted. -/
structure TriggerDesk where
  stored : Set Order
  pending : Multiset Order
  /-- The ids that were stored at some time. -/
  used : Set OrderId

namespace TriggerDesk

/-- Nothing stored yet. -/
def empty : TriggerDesk := ⟨∅, 0, ∅⟩

/-- One event. -/
inductive Moves : TriggerDesk → TradeEvent → TriggerDesk → Prop
  | stored {D : TriggerDesk} (o : Order) : o.id ∉ D.used →
      Moves D (.stored o) { D with stored := insert o D.stored, used := insert o.id D.used }
  | taken {D : TriggerDesk} (o : Order) (mark : Decimal) : o ∈ D.stored →
      o.Fires o.marketId mark.value →
      Moves D (.taken o mark) { D with stored := D.stored \ {o}, pending := o ::ₘ D.pending }
  | submitted {D : TriggerDesk} (o : Order) (s : EngineState) (P : Multiset Order) :
      D.pending = o ::ₘ P → Moves D (.submitted o s) { D with pending := P }
  | cancelled {D : TriggerDesk} (id : OrderId) : Moves D (.cancelled id)
      { D with stored := {o | o ∈ D.stored ∧ ¬ (TradeEvent.cancelled id).Drops o} }
  | filled {D : TriggerDesk} (fill : Fill) (s : EngineState) : Moves D (.filled fill s)
      { D with stored := {o | o ∈ D.stored ∧ ¬ (TradeEvent.filled fill s).Drops o} }
  | liquidated {D : TriggerDesk} (a : AccountAddress) (m : MarketId) (n : Decimal)
      (s s' : EngineState) : Moves D (.liquidated a m n s s')
      { D with stored := {o | o ∈ D.stored ∧ ¬ (TradeEvent.liquidated a m n s s').Drops o} }

/-- Stored orders have used ids, each its own. -/
structure WF (D : TriggerDesk) : Prop where
  used : ∀ o ∈ D.stored, o.id ∈ D.used
  once : ∀ o ∈ D.stored, ∀ o' ∈ D.stored, o.id = o'.id → o = o'

section Events

variable {D D' : TriggerDesk} {ev : TradeEvent} {log : TradeLog} {o : Order}

theorem wf_empty : WF empty := ⟨fun _ h => h.elim, fun _ h => h.elim⟩

/-- Fewer stored orders. -/
theorem WF.sub (h : D.WF) {S : Set Order} {P : Multiset Order} (hS : S ⊆ D.stored) :
    WF { D with stored := S, pending := P } :=
  ⟨fun o ho => h.used o (hS ho), fun o ho o' ho' => h.once o (hS ho) o' (hS ho')⟩

theorem Moves.wf (h : Moves D ev D') (hw : D.WF) : D'.WF := by
  cases h with
  | stored o hnew =>
    refine ⟨?_, ?_⟩
    · rintro x (rfl | hx)
      · exact .inl rfl
      · exact .inr (hw.used x hx)
    · rintro x (rfl | hx) y (rfl | hy) hid
      · rfl
      · exact absurd (hid ▸ hw.used y hy) hnew
      · exact absurd (hid ▸ hw.used x hx) hnew
      · exact hw.once x hx y hy hid
  | taken o mark _ _ => exact hw.sub Set.sdiff_subset
  | submitted o s P _ => exact hw.sub (Set.Subset.refl _)
  | cancelled id => exact hw.sub fun _ h => h.1
  | filled fill s => exact hw.sub fun _ h => h.1
  | liquidated a m n s s' => exact hw.sub fun _ h => h.1

/-- An order gets into the store by being stored. -/
theorem Moves.stores (h : Moves D ev D') (h0 : o ∉ D.stored) (h1 : o ∈ D'.stored) :
    ev = .stored o := by
  cases h with
  | stored x _ =>
    rcases h1 with rfl | h1
    · rfl
    · exact absurd h1 h0
  | taken x mark _ _ => exact absurd h1.1 h0
  | submitted x s P _ => exact absurd h1 h0
  | cancelled id => exact absurd h1.1 h0
  | filled fill s => exact absurd h1.1 h0
  | liquidated a m n s s' => exact absurd h1.1 h0

/-- It gets out by being taken, when its price is met, or dropped. -/
theorem Moves.removes (h : Moves D ev D') (h0 : o ∈ D.stored) (h1 : o ∉ D'.stored) :
    (∃ mark, ev = .taken o mark ∧ o.Fires o.marketId mark.value) ∨ ev.Drops o := by
  have hdrops : ∀ {E : TradeEvent}, o ∉ {x | x ∈ D.stored ∧ ¬ E.Drops x} → E.Drops o := by
    intro E hout
    by_contra hE
    exact hout ⟨h0, hE⟩
  cases h with
  | stored x _ => exact absurd (.inr h0) h1
  | taken x mark _ hf =>
    obtain rfl : o = x := by
      by_contra hne
      exact h1 ⟨h0, hne⟩
    exact .inl ⟨mark, rfl, hf⟩
  | submitted x s P _ => exact absurd h0 h1
  | cancelled id => exact .inr (hdrops h1)
  | filled fill s => exact .inr (hdrops h1)
  | liquidated a m n s s' => exact .inr (hdrops h1)

/-- It gets among the pending ones by being taken from the store, when its price is met. -/
theorem Moves.waits (h : Moves D ev D') (h0 : o ∉ D.pending) (h1 : o ∈ D'.pending) :
    ∃ mark, ev = .taken o mark ∧ o ∈ D.stored ∧ o.Fires o.marketId mark.value := by
  cases h with
  | stored x _ => exact absurd h1 h0
  | taken x mark hx hf =>
    rcases Multiset.mem_cons.mp h1 with rfl | h1
    · exact ⟨mark, rfl, hx, hf⟩
    · exact absurd h1 h0
  | submitted x s P hP =>
    refine absurd ?_ h0
    rw [hP]
    exact Multiset.mem_cons_of_mem h1
  | cancelled id => exact absurd h1 h0
  | filled fill s => exact absurd h1 h0
  | liquidated a m n s s' => exact absurd h1 h0

/-- What is dropped is gone. -/
theorem Moves.not_mem_of_drops (h : Moves D ev D') (ho : ev.Drops o) : o ∉ D'.stored := by
  cases h with
  | stored x _ => exact ho.elim
  | taken x mark _ _ => exact ho.elim
  | submitted x s P _ => exact ho.elim
  | cancelled id => exact fun h => h.2 ho
  | filled fill s => exact fun h => h.2 ho
  | liquidated a m n s s' => exact fun h => h.2 ho

/-! ### Histories -/

theorem reads_wf (h : Reads Moves D log D') (hw : D.WF) : D'.WF :=
  h.invariant hw fun _ _ _ hw hs => hs.wf hw

/-- Taken orders are submitted or pending. -/
theorem pending_balance (h : Reads Moves D log D') :
    (log.submittedOrders : Multiset Order) + D'.pending = D.pending + log.takenOrders := by
  induction h with
  | nil => simp [TradeLog.submittedOrders, TradeLog.takenOrders]
  | @cons D₀ D₁ D₂ ev l hs _ ih =>
    cases hs with
    | taken o mark _ _ =>
      have hsub : TradeLog.submittedOrders (.taken o mark :: l) = TradeLog.submittedOrders l := rfl
      have htak : TradeLog.takenOrders (.taken o mark :: l) = o :: TradeLog.takenOrders l := rfl
      rw [hsub, htak, ih, Multiset.cons_add, ← Multiset.cons_coe, Multiset.add_cons]
    | submitted o s P hP =>
      have hsub : TradeLog.submittedOrders (.submitted o s :: l) =
        o :: TradeLog.submittedOrders l := rfl
      have htak : TradeLog.takenOrders (.submitted o s :: l) = TradeLog.takenOrders l := rfl
      rw [hsub, htak, hP, ← Multiset.cons_coe, Multiset.cons_add, ih, Multiset.cons_add]
    | stored o _ => exact ih
    | cancelled id => exact ih
    | filled fill s => exact ih
    | liquidated a m n s s' => exact ih

/-- An id is taken at most once, and not any more when its order is out of the store. -/
theorem taken_once (h : Reads Moves D log D') (hw : D.WF) :
    (log.takenOrders.map (·.id)).Nodup ∧
      ∀ o ∈ log.takenOrders, o.id ∈ D.used → ∃ o' ∈ D.stored, o'.id = o.id := by
  induction h with
  | nil => exact ⟨List.nodup_nil, fun o ho => absurd ho List.not_mem_nil⟩
  | @cons D₀ D₁ D₂ ev l hs _ ih =>
    obtain ⟨hnd, hold⟩ := ih (hs.wf hw)
    cases hs with
    | taken o mark ho _ =>
      have htak : TradeLog.takenOrders (.taken o mark :: l) = o :: TradeLog.takenOrders l := rfl
      rw [htak]
      refine ⟨?_, ?_⟩
      · rw [List.map_cons, List.nodup_cons]
        refine ⟨fun hid => ?_, hnd⟩
        obtain ⟨x, hx, hxid⟩ := List.mem_map.mp hid
        obtain ⟨y, hy, hyid⟩ := hold x hx (hxid ▸ hw.used o ho)
        exact hy.2 (hw.once y hy.1 o ho (hyid.trans hxid))
      · intro x hx hused
        rcases List.mem_cons.mp hx with rfl | hx
        · exact ⟨x, ho, rfl⟩
        · obtain ⟨y, hy, hyid⟩ := hold x hx hused
          exact ⟨y, hy.1, hyid⟩
    | stored o hnew =>
      refine ⟨hnd, fun x hx hused => ?_⟩
      obtain ⟨y, hy, hyid⟩ := hold x hx (.inr hused)
      rcases hy with rfl | hy
      · exact absurd (hyid ▸ hused) hnew
      · exact ⟨y, hy, hyid⟩
    | submitted o s P _ => exact ⟨hnd, hold⟩
    | cancelled id =>
      exact ⟨hnd, fun x hx hused => (hold x hx hused).imp fun _ h => ⟨h.1.1, h.2⟩⟩
    | filled fill s =>
      exact ⟨hnd, fun x hx hused => (hold x hx hused).imp fun _ h => ⟨h.1.1, h.2⟩⟩
    | liquidated a m n s s' =>
      exact ⟨hnd, fun x hx hused => (hold x hx hused).imp fun _ h => ⟨h.1.1, h.2⟩⟩

/-- A taken order was in the store or is stored on the way. -/
theorem stored_of_taken {mark : Decimal} (h : Reads Moves D log D') (hm : .taken o mark ∈ log) :
    o ∈ D.stored ∨ .stored o ∈ log := by
  obtain ⟨pre, post, rfl⟩ := List.append_of_mem hm
  obtain ⟨D₁, D₂, h1, hs, -⟩ := h.cut
  cases hs with
  | taken _ _ ho _ =>
    by_cases h0 : o ∈ D.stored
    · exact .inl h0
    · obtain ⟨ev, hev, D₃, D₄, hs, hn, hy⟩ := h1.crossing (P := fun D => o ∈ D.stored) h0 ho
      rw [hs.stores hn hy] at hev
      exact .inr (List.mem_append_left _ hev)

/-- **Submissions.** A submitted order was pending, or a check took it before, when its
trigger price was met. -/
theorem taken_of_submitted {pre post : TradeLog} {s : EngineState}
    (h : Reads Moves D (pre ++ .submitted o s :: post) D') :
    o ∈ D.pending ∨ ∃ mark, .taken o mark ∈ pre ∧ o.Fires o.marketId mark.value := by
  obtain ⟨D₁, D₂, h1, hs, -⟩ := h.cut
  cases hs with
  | submitted _ _ P hP =>
    have hin : o ∈ D₁.pending := hP ▸ Multiset.mem_cons_self o P
    by_cases h0 : o ∈ D.pending
    · exact .inl h0
    · obtain ⟨ev, hev, D₃, D₄, hs, hn, hy⟩ := h1.crossing (P := fun D => o ∈ D.pending) h0 hin
      obtain ⟨mark, rfl, -, hf⟩ := hs.waits hn hy
      exact .inr ⟨mark, hev, hf⟩

/-- **Dropped for good.** After an event that drops an order, a check takes it only if it
is stored again. -/
theorem stored_after_drop {pre post : TradeLog} {mark : Decimal}
    (h : Reads Moves D (pre ++ ev :: post) D') (ho : ev.Drops o) (hm : .taken o mark ∈ post) :
    .stored o ∈ post := by
  obtain ⟨D₁, D₂, -, hs, h2⟩ := h.cut
  exact (stored_of_taken h2 hm).resolve_left (hs.not_mem_of_drops ho)

/-- **Removals.** An order that left was taken or dropped. -/
theorem removed_by (h : Reads Moves D log D') (h0 : o ∈ D.stored) (h1 : o ∉ D'.stored) :
    ∃ ev ∈ log, (∃ mark, ev = .taken o mark ∧ o.Fires o.marketId mark.value) ∨ ev.Drops o := by
  obtain ⟨ev, hev, D₁, D₂, hs, hn, hy⟩ :=
    h.crossing (P := fun D => o ∉ D.stored) (not_not.mpr h0) h1
  exact ⟨ev, hev, hs.removes (not_not.mp hn) hy⟩

end Events

end TriggerDesk

end Hypercore
