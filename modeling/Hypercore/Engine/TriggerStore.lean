import Hypercore.Engine.Frames
/-!
# Hypercore.Engine.TriggerStore

The three maps of the trigger orders as one set.

**Agreement.** An order is filed by direction, market and raw trigger price, and
`triggerOrderIndex` tells where. `TriggersAgree` says that the two sides describe
the same orders, each id once. Under it the maps are only a way to write down a set
of orders (`Stored`): storing adds one, removing an id takes one out, a check takes
out the orders that the mark price reaches, and a flat position takes out the
orders of its account and market.
-/

namespace Hypercore

open Exec Int128

/-- The mark price `mark` in market `m` fires the order, which waits in direction `d`. -/
def Order.FiresOn (o : Order) (d : TriggerDirection) (m : MarketId) (mark : Int) : Prop :=
  o.marketId = m ∧ ∃ p, o.triggerDirection = some d ∧ o.triggerPrice.map (·.value) = some p ∧
    EngineState.reached d p mark

/-- The mark price `mark` in market `m` fires the order: it is at or above the trigger price
of an `above` order, at or below that of a `below` order. -/
def Order.Fires (o : Order) (m : MarketId) (mark : Int) : Prop := ∃ d, o.FiresOn d m mark

theorem Order.fires_iff {o : Order} {m : MarketId} {mark : Int} :
    o.Fires m mark ↔ o.FiresOn .above m mark ∨ o.FiresOn .below m mark := by
  constructor
  · rintro ⟨d, h⟩
    cases d with
    | above => exact .inl h
    | below => exact .inr h
  · rintro (h | h)
    · exact ⟨_, h⟩
    · exact ⟨_, h⟩

instance {o : Order} {d : TriggerDirection} {m : MarketId} {mark : Int} :
    Decidable (o.FiresOn d m mark) :=
  decidable_of_iff (o.marketId = m ∧ o.triggerDirection = some d ∧
      (o.triggerPrice.any fun p => EngineState.reached d p.value mark)) <| by
    cases hp : o.triggerPrice <;> simp [Order.FiresOn, hp]

instance {o : Order} {m : MarketId} {mark : Int} : Decidable (o.Fires m mark) :=
  decidable_of_iff _ Order.fires_iff.symm

namespace EngineState

/-- The trigger orders filed under a direction, a market and a raw trigger price. -/
def triggersAt (s : EngineState) (d : TriggerDirection) (m : MarketId) (p : Int) : List Order :=
  (((s.triggers d)[m]?).bind (·[p]?)).getD []

/-- The order is a stored trigger order. -/
def Stored (s : EngineState) (o : Order) : Prop := ∃ d m p, o ∈ s.triggersAt d m p

/-- The index and the two trigger maps describe the same orders, each once. -/
structure TriggersAgree (s : EngineState) : Prop where
  /-- An order is filed under its own terms, and the index knows where. -/
  filed : ∀ d m p, ∀ o ∈ s.triggersAt d m p, o.marketId = m ∧ o.triggerDirection = some d ∧
    o.triggerPrice.map (·.value) = some p ∧ s.triggerOrderIndex[o.id]? = some (m, d, p)
  /-- What the index points to is there. -/
  found : ∀ (id : OrderId) m d p, s.triggerOrderIndex[id]? = some (m, d, p) →
    ∃ o ∈ s.triggersAt d m p, o.id = id
  once : ∀ d m p, ((s.triggersAt d m p).map (·.id)).Nodup
  /-- Only ids that were given out are in use. -/
  fresh : ∀ id : OrderId, s.nextOrderId ≤ id → s.triggerOrderIndex[id]? = none

section Views

variable {s s' : EngineState} {d d' : TriggerDirection} {m m' : MarketId} {p p' : Int}
  {x : FinMap MarketId TriggerMap} {byPrice : TriggerMap}

theorem triggers_setTriggers :
    (s.setTriggers d x).triggers d' = if d = d' then x else s.triggers d' := by
  cases d <;> cases d' <;> rfl

@[simp] theorem triggerOrderIndex_setTriggers :
    (s.setTriggers d x).triggerOrderIndex = s.triggerOrderIndex := by cases d <;> rfl

@[simp] theorem nextOrderId_setTriggers : (s.setTriggers d x).nextOrderId = s.nextOrderId := by
  cases d <;> rfl

/-- Replacing the orders of one market and direction. -/
theorem triggersAt_put :
    (s.setTriggers d ((s.triggers d).insert m byPrice)).triggersAt d' m' p' =
      if d = d' ∧ m = m' then (byPrice[p']?).getD [] else s.triggersAt d' m' p' := by
  unfold triggersAt
  rw [triggers_setTriggers]
  by_cases hd : d = d'
  · subst hd
    rw [if_pos rfl, FinMap.get_insert]
    by_cases hm : m = m'
    · simp [hm]
    · simp [hm]
  · simp [hd]

theorem triggersAt_congr (h : ∀ d, s'.triggers d = s.triggers d) :
    s'.triggersAt d m p = s.triggersAt d m p := by
  unfold triggersAt
  rw [h]

end Views

/-- Storing a trigger order appends it to its list. -/
theorem addTriggerOrder_view (s : EngineState) {o : Order} {price : Decimal}
    {direction : TriggerDirection} (hp : o.triggerPrice = some price)
    (hd : o.triggerDirection = some direction) :
    (∃ triggerOrdersAbove triggerOrdersBelow, s.addTriggerOrder o = { s with
        triggerOrdersAbove, triggerOrdersBelow
        triggerOrderIndex :=
          s.triggerOrderIndex.insert o.id (o.marketId, direction, price.value) }) ∧
      ∀ d m p, (s.addTriggerOrder o).triggersAt d m p =
        if direction = d ∧ o.marketId = m ∧ price.value = p then s.triggersAt d m p ++ [o]
        else s.triggersAt d m p := by
  unfold addTriggerOrder
  simp only [hp, hd]
  refine ⟨by cases direction <;> exact ⟨_, _, rfl⟩, fun d m p => ?_⟩
  set t := s.setTriggers direction _
  have hat : ∀ triggerOrderIndex, ({ t with triggerOrderIndex } : EngineState).triggersAt d m p =
      t.triggersAt d m p := fun _ => triggersAt_congr fun d => by cases d <;> rfl
  rw [hat, triggersAt_put]
  by_cases h : direction = d ∧ o.marketId = m
  · obtain ⟨rfl, rfl⟩ := h
    have hold : ∀ p, s.triggersAt direction o.marketId p =
        ((((s.triggers direction)[o.marketId]?).getD ∅)[p]?).getD [] := by
      intro p
      unfold triggersAt
      cases (s.triggers direction)[o.marketId]? <;> simp
    rw [if_pos ⟨rfl, rfl⟩, FinMap.get_insert, hold]
    by_cases hpp : price.value = p
    · simp [hpp]
    · simp [hpp]
  · rw [if_neg h, if_neg (fun h' => h ⟨h'.1, h'.2.1⟩)]

/-- Removing a trigger order, seen through the lists of the orders. -/
theorem removeTriggerOrder_view (s : EngineState) (id : OrderId) :
    ∃ maps : FinMap MarketId TriggerMap × FinMap MarketId TriggerMap,
      (s.removeTriggerOrder id).1 = ((s.triggerOrderIndex[id]?).bind fun x =>
        (s.triggersAt x.2.1 x.1 x.2.2).find? fun o => decide (o.id = id)) ∧
      (s.removeTriggerOrder id).2 = { s with
        triggerOrdersAbove := maps.1
        triggerOrdersBelow := maps.2
        triggerOrderIndex := s.triggerOrderIndex.erase id } ∧
      ∀ d m p, (s.removeTriggerOrder id).2.triggersAt d m p =
        if s.triggerOrderIndex[id]? = some (m, d, p) then
          (s.triggersAt d m p).eraseP fun o => decide (o.id = id)
        else s.triggersAt d m p := by
  have herase : s.triggerOrderIndex[id]? = none →
      s.triggerOrderIndex.erase id = s.triggerOrderIndex := by
    intro hix
    refine Std.ExtTreeMap.ext_getElem? fun i => ?_
    rw [FinMap.get_erase]
    split
    · rename_i hi
      rw [← hi, hix]
    · rfl
  cases hix : s.triggerOrderIndex[id]? with
  | none =>
    simp only [removeTriggerOrder, hix, herase hix]
    exact ⟨(s.triggerOrdersAbove, s.triggerOrdersBelow), rfl, rfl, fun _ _ _ => by simp⟩
  | some place =>
    obtain ⟨m, d, p⟩ := place
    set s₁ : EngineState := { s with triggerOrderIndex := s.triggerOrderIndex.erase id } with hs₁
    have htriggers : ∀ d, s₁.triggers d = s.triggers d := by rintro ⟨⟩ <;> rfl
    -- nothing is found: only the index changes
    have hmiss : s.removeTriggerOrder id = (none, s₁) →
        (s.triggersAt d m p).find? (fun o => decide (o.id = id)) = none →
        ∃ maps : FinMap MarketId TriggerMap × FinMap MarketId TriggerMap,
          (s.removeTriggerOrder id).1 =
            (s.triggersAt d m p).find? (fun o => decide (o.id = id)) ∧
          (s.removeTriggerOrder id).2 = { s with
            triggerOrdersAbove := maps.1
            triggerOrdersBelow := maps.2
            triggerOrderIndex := s.triggerOrderIndex.erase id } ∧
          ∀ d' k q, (s.removeTriggerOrder id).2.triggersAt d' k q =
            if some (m, d, p) = some (k, d', q) then
              (s.triggersAt d' k q).eraseP fun o => decide (o.id = id)
            else s.triggersAt d' k q := by
      intro hres hnone
      rw [hres, hnone]
      refine ⟨(s.triggerOrdersAbove, s.triggerOrdersBelow), rfl, rfl, fun d' k q => ?_⟩
      rw [triggersAt_congr htriggers]
      split
      · rename_i hplace
        simp only [Option.some.injEq, Prod.mk.injEq] at hplace
        obtain ⟨rfl, rfl, rfl⟩ := hplace
        rw [List.eraseP_of_forall_not]
        intro o ho
        simpa using List.find?_eq_none.mp hnone o ho
      · rfl
    cases hm : (s.triggers d)[m]? with
    | none =>
      refine hmiss ?_ (by simp [triggersAt, hm])
      simp only [removeTriggerOrder, hix, ← hs₁, htriggers, hm]
    | some byPrice =>
      cases hp : byPrice[p]? with
      | none =>
        refine hmiss ?_ (by simp [triggersAt, hm, hp])
        simp only [removeTriggerOrder, hix, ← hs₁, htriggers, hm, hp]
      | some orders =>
        have horders : s.triggersAt d m p = orders := by simp [triggersAt, hm, hp]
        cases hf : orders.find? fun o => decide (o.id = id) with
        | none =>
          refine hmiss ?_ (by rw [horders, hf])
          simp only [removeTriggerOrder, hix, ← hs₁, htriggers, hm, hp, hf]
        | some o =>
          set byPrice' := if orders.eraseP (fun o => decide (o.id = id)) = []
            then byPrice.erase p
            else byPrice.insert p (orders.eraseP fun o => decide (o.id = id)) with hbp
          have hres : s.removeTriggerOrder id =
              (some o, s₁.setTriggers d ((s₁.triggers d).insert m byPrice')) := by
            simp only [removeTriggerOrder, hix, ← hs₁, htriggers, hm, hp, hf, hbp]
          have hlook : ∀ q : Int, (byPrice'[q]?).getD [] =
              if p = q then orders.eraseP (fun o => decide (o.id = id))
              else s.triggersAt d m q := by
            intro q
            have hsame : s.triggersAt d m q = (byPrice[q]?).getD [] := by simp [triggersAt, hm]
            rw [hbp, hsame]
            by_cases hnil : orders.eraseP (fun o => decide (o.id = id)) = []
            · rw [if_pos hnil, FinMap.get_erase, hnil]
              by_cases hpq : p = q <;> simp [hpq]
            · rw [if_neg hnil, FinMap.get_insert]
              by_cases hpq : p = q <;> simp [hpq]
          have hat : ∀ d' k q, (s₁.setTriggers d ((s₁.triggers d).insert m byPrice')).triggersAt
              d' k q = if some (m, d, p) = some (k, d', q) then
                (s.triggersAt d' k q).eraseP fun o => decide (o.id = id)
              else s.triggersAt d' k q := by
            intro d' k q
            rw [triggersAt_put, hlook, triggersAt_congr htriggers]
            by_cases hdk : d = d' ∧ m = k
            · obtain ⟨rfl, rfl⟩ := hdk
              by_cases hpq : p = q
              · subst hpq
                simp [horders]
              · simp [hpq]
            · rw [if_neg hdk, if_neg]
              intro hplace
              simp only [Option.some.injEq, Prod.mk.injEq] at hplace
              exact hdk ⟨hplace.2.1, hplace.1⟩
          rw [hres]
          dsimp only [Option.bind_some]
          rw [horders, hf]
          cases d with
          | above => exact ⟨(_, _), rfl, rfl, hat⟩
          | below => exact ⟨(_, _), rfl, rfl, hat⟩

/-- Taking out the orders that a mark price reaches, seen through the lists of the orders. -/
theorem getTriggeredOrders_view (s : EngineState) (d : TriggerDirection) (m : MarketId)
    (mark : Decimal) :
    ∃ maps : FinMap MarketId TriggerMap × FinMap MarketId TriggerMap,
      (s.getTriggeredOrders d m mark).1 = (((s.triggers d)[m]?).getD ∅).toList.flatMap
        (fun p => if reached d p.1 mark.value then p.2 else []) ∧
      (s.getTriggeredOrders d m mark).2 = { s with
        triggerOrdersAbove := maps.1
        triggerOrdersBelow := maps.2
        triggerOrderIndex := (s.getTriggeredOrders d m mark).1.foldl
          (fun ix o => ix.erase o.id) s.triggerOrderIndex } ∧
      ∀ d' k p, (s.getTriggeredOrders d m mark).2.triggersAt d' k p =
        if d = d' ∧ m = k ∧ reached d p mark.value then [] else s.triggersAt d' k p := by
  cases hm : (s.triggers d)[m]? with
  | none =>
    have hres : s.getTriggeredOrders d m mark = ([], s) := by simp only [getTriggeredOrders, hm]
    rw [hres]
    refine ⟨(s.triggerOrdersAbove, s.triggerOrdersBelow), by simp, rfl, fun d' k p => ?_⟩
    split
    · rename_i h
      obtain ⟨rfl, rfl, -⟩ := h
      simp [triggersAt, hm]
    · rfl
  | some byPrice =>
    set triggered := byPrice.toList.filter fun p => reached d p.1 mark.value with htr
    set s₁ := s.setTriggers d ((s.triggers d).insert m
      (triggered.foldl (fun m p => m.erase p.1) byPrice)) with hs₁
    have hresult : triggered.flatMap (·.2) =
        byPrice.toList.flatMap fun p => if reached d p.1 mark.value then p.2 else [] := by
      rw [htr]
      induction byPrice.toList with
      | nil => rfl
      | cons p l ih =>
        rw [List.flatMap_cons, ← ih]
        cases hr : reached d p.1 mark.value
        · rw [List.filter_cons_of_neg (by simp [hr])]
          rfl
        · rw [List.filter_cons_of_pos (by simpa using hr), List.flatMap_cons]
          rfl
    have hres : s.getTriggeredOrders d m mark = (triggered.flatMap (·.2), { s₁ with
        triggerOrderIndex := (triggered.flatMap (·.2)).foldl (fun ix o => ix.erase o.id)
          s₁.triggerOrderIndex }) := by
      simp only [getTriggeredOrders, hm, ← htr, ← hs₁]
    have hkeys : ∀ p, p ∈ triggered.map (·.1) ↔ reached d p mark.value ∧ byPrice[p]? ≠ none := by
      intro p
      rw [List.mem_map]
      constructor
      · rintro ⟨⟨k, v⟩, hk, rfl⟩
        obtain ⟨hk, hr⟩ := List.mem_filter.mp hk
        rw [FinMap.mem_toList.mp hk]
        exact ⟨hr, by simp⟩
      · rintro ⟨hr, hp⟩
        obtain ⟨v, hv⟩ := Option.ne_none_iff_exists'.mp hp
        exact ⟨(p, v), List.mem_filter.mpr ⟨FinMap.mem_toList.mpr hv, hr⟩, rfl⟩
    have hat : ∀ d' k p, s₁.triggersAt d' k p =
        if d = d' ∧ m = k ∧ reached d p mark.value then [] else s.triggersAt d' k p := by
      intro d' k p
      rw [hs₁, triggersAt_put, FinMap.get_foldl_erase]
      by_cases h : d = d' ∧ m = k
      · obtain ⟨rfl, rfl⟩ := h
        have hold : s.triggersAt d m p = (byPrice[p]?).getD [] := by simp [triggersAt, hm]
        rw [if_pos ⟨rfl, rfl⟩, hold]
        by_cases hr : reached d p mark.value
        · by_cases hp : byPrice[p]? = none
          · simp [hp, hr]
          · rw [if_pos ((hkeys p).mpr ⟨hr, hp⟩)]
            simp [hr]
        · rw [if_neg (fun hk => hr ((hkeys p).mp hk).1)]
          simp [hr]
      · rw [if_neg h, if_neg (fun h' => h ⟨h'.1, h'.2.1⟩)]
    rw [hres]
    refine ⟨(s₁.triggerOrdersAbove, s₁.triggerOrdersBelow), ?_, ?_, fun d' k p => ?_⟩
    · rw [hresult]
      rfl
    · cases d <;> rfl
    · exact (triggersAt_congr (by rintro ⟨⟩ <;> rfl)).trans (hat d' k p)

namespace TriggersAgree

variable {s s' : EngineState} {o o' : Order} {id : OrderId} {d : TriggerDirection} {m : MarketId}
  {p : Int}

theorem new : TriggersAgree .new where
  filed d m p o h := by cases d <;> simp [triggersAt, triggers, EngineState.new] at h
  found id m d p h := by simp [EngineState.new] at h
  once d m p := by cases d <;> simp [triggersAt, triggers, EngineState.new]
  fresh id _ := by simp [EngineState.new]

/-- Writes outside the trigger maps. -/
theorem congr (hs : s.TriggersAgree) (habove : s'.triggerOrdersAbove = s.triggerOrdersAbove)
    (hbelow : s'.triggerOrdersBelow = s.triggerOrdersBelow)
    (hindex : s'.triggerOrderIndex = s.triggerOrderIndex)
    (hnext : s.nextOrderId ≤ s'.nextOrderId) :
    s'.TriggersAgree ∧ ∀ o, s'.Stored o ↔ s.Stored o := by
  have hat : ∀ d m p, s'.triggersAt d m p = s.triggersAt d m p := fun d m p =>
    triggersAt_congr (by rintro ⟨⟩ <;> assumption)
  refine ⟨⟨?_, ?_, ?_, fun id h => ?_⟩, fun o => ?_⟩
  · simpa only [hat, hindex] using hs.filed
  · simpa only [hat, hindex] using hs.found
  · simpa only [hat] using hs.once
  · rw [hindex]
    exact hs.fresh id (hnext.trans h)
  · simp only [Stored, hat]

/-- Stored orders with one id are one order. -/
theorem eq_of_id (hs : s.TriggersAgree) (h : s.Stored o) (h' : s.Stored o') (hid : o.id = o'.id) :
    o = o' := by
  obtain ⟨d, m, p, hm⟩ := h
  obtain ⟨d', m', p', hm'⟩ := h'
  have hix := (hs.filed d m p o hm).2.2.2
  have hix' := (hs.filed d' m' p' o' hm').2.2.2
  rw [hid, hix'] at hix
  obtain ⟨rfl, rfl, rfl⟩ : m' = m ∧ d' = d ∧ p' = p := by simpa using hix
  exact List.inj_on_of_nodup_map (hs.once _ _ _) hm hm' hid

theorem lt_next (hs : s.TriggersAgree) (h : s.Stored o) : o.id < s.nextOrderId := by
  obtain ⟨d, m, p, hm⟩ := h
  by_contra hle
  have hnone := hs.fresh o.id (not_lt.mp hle)
  rw [(hs.filed d m p o hm).2.2.2] at hnone
  cases hnone

/-- The place of a stored order is read off its own terms. -/
theorem mem_at (hs : s.TriggersAgree) :
    o ∈ s.triggersAt d m p ↔ s.Stored o ∧ o.marketId = m ∧ o.triggerDirection = some d ∧
      o.triggerPrice.map (·.value) = some p := by
  constructor
  · intro h
    obtain ⟨h1, h2, h3, -⟩ := hs.filed d m p o h
    exact ⟨⟨d, m, p, h⟩, h1, h2, h3⟩
  · rintro ⟨⟨d', m', p', h⟩, h1, h2, h3⟩
    obtain ⟨g1, g2, g3, -⟩ := hs.filed d' m' p' o h
    obtain rfl := g1.symm.trans h1
    obtain rfl := Option.some.inj (g2.symm.trans h2)
    obtain rfl := Option.some.inj (g3.symm.trans h3)
    exact h

theorem index_iff (hs : s.TriggersAgree) :
    s.triggerOrderIndex[id]? ≠ none ↔ ∃ o, s.Stored o ∧ o.id = id := by
  constructor
  · intro h
    obtain ⟨⟨m, d, p⟩, hix⟩ := Option.ne_none_iff_exists'.mp h
    obtain ⟨o, ho, hid⟩ := hs.found id m d p hix
    exact ⟨o, ⟨d, m, p, ho⟩, hid⟩
  · rintro ⟨o, ⟨d, m, p, ho⟩, rfl⟩
    rw [(hs.filed d m p o ho).2.2.2]
    simp

/-! ### Storing -/

/-- Storing an order with a new id adds it, if it has a trigger price and a direction. -/
theorem add (hs : s.TriggersAgree) (hnew : ∀ o', s.Stored o' → o'.id ≠ o.id)
    (hlt : o.id < s.nextOrderId) :
    (s.addTriggerOrder o).TriggersAgree ∧ ∀ o', (s.addTriggerOrder o).Stored o' ↔
      s.Stored o' ∨ (o' = o ∧ o.triggerPrice.isSome ∧ o.triggerDirection.isSome) := by
  by_cases hfiled : o.triggerPrice.isSome ∧ o.triggerDirection.isSome
  · obtain ⟨price, hp⟩ := Option.isSome_iff_exists.mp hfiled.1
    obtain ⟨direction, hd⟩ := Option.isSome_iff_exists.mp hfiled.2
    obtain ⟨⟨_, _, ht⟩, hat⟩ := s.addTriggerOrder_view hp hd
    set t := s.addTriggerOrder o
    have hmem : ∀ d m p o', o' ∈ t.triggersAt d m p ↔ o' ∈ s.triggersAt d m p ∨
        (o' = o ∧ direction = d ∧ o.marketId = m ∧ price.value = p) := by
      intro d m p o'
      rw [hat]
      split
      · rename_i h
        simp [h]
      · rename_i h
        simp [h]
    have hindex : ∀ id : OrderId, t.triggerOrderIndex[id]? =
        if o.id = id then some (o.marketId, direction, price.value)
        else s.triggerOrderIndex[id]? := by
      intro id
      rw [ht]
      exact FinMap.get_insert _ _ _ _
    refine ⟨⟨?_, ?_, ?_, ?_⟩, fun o' => ?_⟩
    · intro d m p o' ho'
      rw [hindex]
      rcases (hmem d m p o').mp ho' with h | ⟨rfl, rfl, rfl, rfl⟩
      · obtain ⟨h1, h2, h3, h4⟩ := hs.filed d m p o' h
        rw [if_neg (hnew o' ⟨d, m, p, h⟩).symm]
        exact ⟨h1, h2, h3, h4⟩
      · exact ⟨rfl, hd, by rw [hp]; rfl, if_pos rfl⟩
    · intro id m d p h
      rw [hindex] at h
      split at h
      · rename_i hid
        obtain ⟨rfl, rfl, rfl⟩ : o.marketId = m ∧ direction = d ∧ price.value = p := by
          simpa using h
        exact ⟨o, (hmem _ _ _ _).mpr (.inr ⟨rfl, rfl, rfl, rfl⟩), hid⟩
      · obtain ⟨o', ho', hid⟩ := hs.found id m d p h
        exact ⟨o', (hmem _ _ _ _).mpr (.inl ho'), hid⟩
    · intro d m p
      rw [hat]
      split
      · rw [List.map_append, List.map_singleton, List.nodup_append]
        refine ⟨hs.once d m p, List.nodup_singleton _, ?_⟩
        intro a ha b hb
        obtain ⟨o', ho', rfl⟩ := List.mem_map.mp ha
        rw [List.mem_singleton.mp hb]
        exact hnew o' ⟨d, m, p, ho'⟩
      · exact hs.once d m p
    · intro id h
      rw [ht] at h
      rw [hindex, if_neg (hlt.trans_le h).ne]
      exact hs.fresh id h
    · rw [hp, hd]
      constructor
      · rintro ⟨d, m, p, h⟩
        rcases (hmem d m p o').mp h with h | ⟨rfl, -⟩
        · exact .inl ⟨d, m, p, h⟩
        · exact .inr ⟨rfl, rfl, rfl⟩
      · rintro (⟨d, m, p, h⟩ | ⟨rfl, -⟩)
        · exact ⟨d, m, p, (hmem d m p o').mpr (.inl h)⟩
        · exact ⟨_, _, _, (hmem _ _ _ _).mpr (.inr ⟨rfl, rfl, rfl, rfl⟩)⟩
  · have hsame : s.addTriggerOrder o = s := by
      unfold addTriggerOrder
      split
      · rename_i hp hd
        exact absurd ⟨by simp [hp], by simp [hd]⟩ hfiled
      · rfl
    rw [hsame]
    refine ⟨hs, fun o' => ⟨.inl, ?_⟩⟩
    rintro (h | ⟨-, h⟩)
    · exact h
    · exact absurd h hfiled

/-! ### Taking out -/

/-- What every removal comes to: some orders leave their lists, and their ids the index. -/
theorem shrink {t : EngineState} (hs : s.TriggersAgree) (keep : Order → Prop)
    (hsub : ∀ d m p, (t.triggersAt d m p).Sublist (s.triggersAt d m p))
    (hmem : ∀ d m p, ∀ o ∈ s.triggersAt d m p, o ∈ t.triggersAt d m p ↔ keep o)
    (hkeep : ∀ o, s.Stored o → keep o → t.triggerOrderIndex[o.id]? = s.triggerOrderIndex[o.id]?)
    (hdrop : ∀ o, s.Stored o → ¬ keep o → t.triggerOrderIndex[o.id]? = none)
    (hnone : ∀ id : OrderId, s.triggerOrderIndex[id]? = none → t.triggerOrderIndex[id]? = none)
    (hnext : s.nextOrderId ≤ t.nextOrderId) :
    t.TriggersAgree ∧ ∀ o, t.Stored o ↔ s.Stored o ∧ keep o := by
  have hold : ∀ d m p, ∀ o ∈ t.triggersAt d m p, o ∈ s.triggersAt d m p ∧ keep o := by
    intro d m p o ho
    have h := (hsub d m p).subset ho
    exact ⟨h, (hmem d m p o h).mp ho⟩
  refine ⟨⟨?_, ?_, ?_, ?_⟩, fun o => ⟨?_, ?_⟩⟩
  · intro d m p o ho
    obtain ⟨h, hk⟩ := hold d m p o ho
    obtain ⟨h1, h2, h3, h4⟩ := hs.filed d m p o h
    exact ⟨h1, h2, h3, by rw [hkeep o ⟨d, m, p, h⟩ hk, h4]⟩
  · intro id m d p hix
    have hne : s.triggerOrderIndex[id]? ≠ none := fun h => by
      rw [hnone id h] at hix
      cases hix
    obtain ⟨o, ho, rfl⟩ := hs.index_iff.mp hne
    have hk : keep o := by
      by_contra hk
      rw [hdrop o ho hk] at hix
      cases hix
    rw [hkeep o ho hk] at hix
    obtain ⟨o', ho', hid⟩ := hs.found _ _ _ _ hix
    obtain rfl := hs.eq_of_id ⟨_, _, _, ho'⟩ ho hid
    exact ⟨o', (hmem d m p o' ho').mpr hk, rfl⟩
  · intro d m p
    exact (hs.once d m p).sublist ((hsub d m p).map _)
  · intro id h
    exact hnone id (hs.fresh id (hnext.trans h))
  · rintro ⟨d, m, p, ho⟩
    obtain ⟨h, hk⟩ := hold d m p o ho
    exact ⟨⟨d, m, p, h⟩, hk⟩
  · rintro ⟨⟨d, m, p, h⟩, hk⟩
    exact ⟨d, m, p, (hmem d m p o h).mpr hk⟩

/-- Erasing by an id that occurs once. -/
theorem mem_eraseP_id {l : List Order} (hl : (l.map (·.id)).Nodup) :
    o ∈ l.eraseP (fun o => decide (o.id = id)) ↔ o ∈ l ∧ o.id ≠ id := by
  induction l with
  | nil => simp
  | cons a l ih =>
    rw [List.map_cons, List.nodup_cons] at hl
    by_cases ha : a.id = id
    · rw [List.eraseP_cons_of_pos (by simpa using ha), List.mem_cons]
      constructor
      · intro h
        refine ⟨.inr h, fun hid => hl.1 ?_⟩
        rw [ha, ← hid]
        exact List.mem_map_of_mem h
      · rintro ⟨rfl | h, hid⟩
        · exact absurd ha hid
        · exact h
    · rw [List.eraseP_cons_of_neg (by simpa using ha), List.mem_cons, List.mem_cons, ih hl.2]
      constructor
      · rintro (rfl | ⟨h, hid⟩)
        · exact ⟨.inl rfl, ha⟩
        · exact ⟨.inr h, hid⟩
      · rintro ⟨rfl | h, hid⟩
        · exact .inl rfl
        · exact .inr ⟨h, hid⟩

/-- Removing an id takes out the order that has it. -/
theorem remove (hs : s.TriggersAgree) (id : OrderId) :
    (s.removeTriggerOrder id).2.TriggersAgree ∧
      ∀ o, (s.removeTriggerOrder id).2.Stored o ↔ s.Stored o ∧ o.id ≠ id := by
  cases hix : s.triggerOrderIndex[id]? with
  | none =>
    have hnone : ∀ o, s.Stored o → o.id ≠ id := fun o ho hid =>
      hs.index_iff.mpr ⟨o, ho, hid⟩ hix
    have hsame : (s.removeTriggerOrder id).2 = s := by simp only [removeTriggerOrder, hix]
    rw [hsame]
    exact ⟨hs, fun o => ⟨fun h => ⟨h, hnone o h⟩, fun h => h.1⟩⟩
  | some place =>
    obtain ⟨m, d, p⟩ := place
    obtain ⟨maps, -, hres, hview⟩ := s.removeTriggerOrder_view id
    have hat : ∀ d' m' p', (s.removeTriggerOrder id).2.triggersAt d' m' p' =
        if d = d' ∧ m = m' ∧ p = p' then (s.triggersAt d m p).eraseP fun o => decide (o.id = id)
        else s.triggersAt d' m' p' := by
      intro d' m' p'
      rw [hview, hix]
      simp only [Option.some.injEq, Prod.mk.injEq]
      by_cases h : d = d' ∧ m = m' ∧ p = p'
      · obtain ⟨rfl, rfl, rfl⟩ := h
        simp
      · rw [if_neg h, if_neg fun h' => h ⟨h'.2.1, h'.1, h'.2.2⟩]
    have hindex : (s.removeTriggerOrder id).2.triggerOrderIndex = s.triggerOrderIndex.erase id := by
      rw [hres]
    refine hs.shrink (fun o => o.id ≠ id) ?_ ?_ ?_ ?_ ?_ ?_
    · intro d' m' p'
      rw [hat]
      split
      · rename_i h
        obtain ⟨rfl, rfl, rfl⟩ := h
        exact List.eraseP_sublist
      · exact .refl _
    · intro d' m' p' o' ho'
      rw [hat]
      split
      · rename_i h
        obtain ⟨rfl, rfl, rfl⟩ := h
        rw [mem_eraseP_id (hs.once d m p)]
        simp [ho']
      · rename_i h
        refine iff_of_true ho' fun hid' => h ?_
        have hix' := (hs.filed d' m' p' o' ho').2.2.2
        rw [hid', hix] at hix'
        obtain ⟨rfl, rfl, rfl⟩ : m = m' ∧ d = d' ∧ p = p' := by simpa using hix'
        exact ⟨rfl, rfl, rfl⟩
    · intro o' _ hk
      rw [hindex, FinMap.get_erase_ne _ (Ne.symm hk)]
    · intro o' _ hk
      rw [hindex, not_not.mp hk, FinMap.get_erase_self]
    · intro a ha
      rw [hindex, FinMap.get_erase]
      split
      · rfl
      · exact ha
    · rw [hres]

/-- A flat position takes out the trigger orders of its account and market. -/
theorem cancel (hs : s.TriggersAgree) (a : AccountAddress) (m : MarketId) :
    (s.cancelTriggerOrdersForPosition a m).TriggersAgree ∧
      ∀ o, (s.cancelTriggerOrdersForPosition a m).Stored o ↔
        s.Stored o ∧ ¬ (o.owner = a ∧ o.marketId = m) := by
  have hall : ∀ d o, o ∈ s.triggerOrders d m ↔ ∃ p, o ∈ s.triggersAt d m p := by
    intro d o
    unfold triggerOrders triggersAt
    rw [List.mem_flatMap]
    constructor
    · rintro ⟨⟨p, orders⟩, hp, ho⟩
      refine ⟨p, ?_⟩
      have hp := FinMap.mem_toList.mp hp
      cases hm : (s.triggers d)[m]? with
      | none => simp [hm] at hp
      | some byPrice =>
        simp only [hm, Option.getD_some] at hp
        simpa [hp] using ho
    · rintro ⟨p, ho⟩
      cases hm : (s.triggers d)[m]? with
      | none => simp [hm] at ho
      | some byPrice =>
        cases hp : byPrice[p]? with
        | none => simp [hm, hp] at ho
        | some orders =>
          simp only [hm, hp, Option.bind_some, Option.getD_some] at ho
          exact ⟨(p, orders), FinMap.mem_toList.mpr hp, ho⟩
  -- removing a list of ids one after the other
  have hfold : ∀ (l : List Order) (s : EngineState), s.TriggersAgree →
      (l.foldl (fun s o => (s.removeTriggerOrder o.id).2) s).TriggersAgree ∧
      ∀ o, (l.foldl (fun s o => (s.removeTriggerOrder o.id).2) s).Stored o ↔
        s.Stored o ∧ ∀ o' ∈ l, o.id ≠ o'.id := by
    intro l
    induction l with
    | nil => exact fun s hs => ⟨hs, fun o => by simp⟩
    | cons a l ih =>
      intro s hs
      obtain ⟨hs₁, hst₁⟩ := hs.remove a.id
      obtain ⟨hs₂, hst₂⟩ := ih _ hs₁
      refine ⟨hs₂, fun o => ?_⟩
      rw [List.foldl_cons, hst₂, hst₁, List.forall_mem_cons, and_assoc]
  obtain ⟨hagree, hstored⟩ := hfold ((s.triggerOrders .above m ++ s.triggerOrders .below m).filter
    (·.owner = a)) s hs
  refine ⟨hagree, fun o => ?_⟩
  rw [cancelTriggerOrdersForPosition, hstored]
  refine and_congr_right fun ho => ⟨fun h hown => ?_, fun h o' ho' hid => ?_⟩
  · obtain ⟨d, m', p, hm⟩ := id ho
    obtain rfl : m' = m := ((hs.filed d m' p o hm).1.symm.trans hown.2)
    refine h o (List.mem_filter.mpr ⟨?_, by simpa using hown.1⟩) rfl
    rw [List.mem_append, hall, hall]
    cases d with
    | above => exact .inl ⟨p, hm⟩
    | below => exact .inr ⟨p, hm⟩
  · obtain ⟨hmem, howner⟩ := List.mem_filter.mp ho'
    have hst : s.Stored o' ∧ o'.marketId = m := by
      rw [List.mem_append, hall, hall] at hmem
      rcases hmem with ⟨p, hm⟩ | ⟨p, hm⟩
      · exact ⟨⟨_, _, p, hm⟩, (hs.filed _ _ p o' hm).1⟩
      · exact ⟨⟨_, _, p, hm⟩, (hs.filed _ _ p o' hm).1⟩
    obtain rfl := hs.eq_of_id ho hst.1 hid
    exact h ⟨by simpa using howner, hst.2⟩

/-! ### Firing -/

/-- A check takes the orders out that fire, each once. -/
theorem take (hs : s.TriggersAgree) (d : TriggerDirection) (m : MarketId) (mark : Decimal) :
    (s.getTriggeredOrders d m mark).2.TriggersAgree ∧
      (∀ o, (s.getTriggeredOrders d m mark).2.Stored o ↔ s.Stored o ∧ ¬ o.FiresOn d m mark.value) ∧
      (∀ o, o ∈ (s.getTriggeredOrders d m mark).1 ↔ s.Stored o ∧ o.FiresOn d m mark.value) ∧
      ((s.getTriggeredOrders d m mark).1.map (·.id)).Nodup := by
  obtain ⟨maps, hresult, hstate, hat⟩ := s.getTriggeredOrders_view d m mark
  set byPrice := ((s.triggers d)[m]?).getD ∅ with hbp
  set result := (s.getTriggeredOrders d m mark).1
  have hold : ∀ p : Int, s.triggersAt d m p = (byPrice[p]?).getD [] := by
    intro p
    rw [hbp, triggersAt]
    cases (s.triggers d)[m]? <;> simp
  have hmem : ∀ o, o ∈ result ↔ s.Stored o ∧ o.FiresOn d m mark.value := by
    intro o
    rw [hresult, List.mem_flatMap]
    constructor
    · rintro ⟨⟨p, orders⟩, hp, ho⟩
      split at ho
      · rename_i hr
        have hin : o ∈ s.triggersAt d m p := by
          rw [hold, FinMap.mem_toList.mp hp]
          exact ho
        obtain ⟨hst, h1, h2, h3⟩ := hs.mem_at.mp hin
        exact ⟨hst, h1, p, h2, h3, hr⟩
      · exact absurd ho List.not_mem_nil
    · rintro ⟨hst, h1, p, h2, h3, hr⟩
      have hin := hs.mem_at.mpr ⟨hst, h1, h2, h3⟩
      rw [hold] at hin
      cases hp : byPrice[p]? with
      | none => simp [hp] at hin
      | some orders =>
        rw [hp] at hin
        exact ⟨(p, orders), FinMap.mem_toList.mpr hp, by rw [if_pos hr]; exact hin⟩
  have hnodup : (result.map (·.id)).Nodup := by
    rw [hresult, List.map_flatMap, List.nodup_flatMap]
    have hin : ∀ p ∈ byPrice.toList, s.triggersAt d m p.1 = p.2 := by
      intro p hp
      rw [hold, FinMap.mem_toList.mp hp]
      rfl
    refine ⟨fun p hp => ?_, ?_⟩
    · split
      · exact hin p hp ▸ hs.once d m p.1
      · exact List.nodup_nil
    · have hkeys : byPrice.toList.Pairwise fun p q => p.1 ≠ q.1 := by
        have := (FinMap.nodup_keys byPrice)
        rwa [List.Nodup, List.pairwise_map] at this
      refine hkeys.imp_of_mem fun {p q} hp hq hne => ?_
      intro id hid hid'
      obtain ⟨o, ho, rfl⟩ := List.mem_map.mp hid
      obtain ⟨o', ho', he⟩ := List.mem_map.mp hid'
      split at ho
      · split at ho'
        · have h1 := (hs.filed d m p.1 o (hin p hp ▸ ho)).2.2.2
          have h2 := (hs.filed d m q.1 o' (hin q hq ▸ ho')).2.2.2
          rw [he, h1] at h2
          exact hne (by simpa using h2)
        · exact absurd ho' List.not_mem_nil
      · exact absurd ho List.not_mem_nil
  have hindex : ∀ id : OrderId, (s.getTriggeredOrders d m mark).2.triggerOrderIndex[id]? =
      if id ∈ result.map (·.id) then none else s.triggerOrderIndex[id]? := by
    intro id
    rw [hstate]
    exact FinMap.get_foldl_erase _ _ _ _
  have hout : ∀ o, s.Stored o → (o.id ∈ result.map (·.id) ↔ o.FiresOn d m mark.value) := by
    intro o ho
    rw [List.mem_map]
    constructor
    · rintro ⟨o', ho', hid⟩
      obtain ⟨hst, hf⟩ := (hmem o').mp ho'
      rw [← hs.eq_of_id hst ho hid]
      exact hf
    · intro hf
      exact ⟨o, (hmem o).mpr ⟨ho, hf⟩, rfl⟩
  obtain ⟨hagree, hstored⟩ := hs.shrink (t := (s.getTriggeredOrders d m mark).2)
    (fun o => ¬ o.FiresOn d m mark.value)
    (by
      intro d' m' p'
      rw [hat]
      split
      · exact List.nil_sublist _
      · exact .refl _)
    (by
      intro d' m' p' o ho
      obtain ⟨hst, h1, h2, h3⟩ := hs.mem_at.mp ho
      rw [hat]
      split
      · rename_i h
        obtain ⟨rfl, rfl, hr⟩ := h
        exact iff_of_false List.not_mem_nil (not_not.mpr ⟨h1, p', h2, h3, hr⟩)
      · rename_i h
        refine iff_of_true ho fun ⟨g1, p, g2, g3, hr⟩ => h ?_
        obtain rfl := Option.some.inj (g3.symm.trans h3)
        exact ⟨Option.some.inj (g2.symm.trans h2), g1.symm.trans h1, hr⟩)
    (by
      intro o ho hk
      rw [hindex, if_neg (fun h => hk ((hout o ho).mp h))])
    (by
      intro o ho hk
      rw [hindex, if_pos ((hout o ho).mpr (not_not.mp hk))])
    (by
      intro id hid
      rw [hindex]
      split
      · rfl
      · exact hid)
    (by rw [hstate])
  exact ⟨hagree, hstored, hmem, hnodup⟩

end TriggersAgree

/-! ### How many there are -/

/-- The ids of the stored trigger orders. -/
def triggerIds (s : EngineState) : List OrderId := s.triggerOrderIndex.toList.map (·.1)

section Ids

variable {s s' : EngineState}

theorem mem_triggerIds (hs : s.TriggersAgree) {id : OrderId} :
    id ∈ s.triggerIds ↔ ∃ o, s.Stored o ∧ o.id = id := by
  rw [← hs.index_iff, triggerIds, List.mem_map]
  constructor
  · rintro ⟨p, hp, rfl⟩
    rw [FinMap.mem_toList.mp hp]
    simp
  · intro h
    obtain ⟨v, hv⟩ := Option.ne_none_iff_exists'.mp h
    exact ⟨(id, v), FinMap.mem_toList.mpr hv, rfl⟩

/-- Fewer orders, fewer ids. -/
theorem triggerIds_le (hs : s.TriggersAgree) (hs' : s'.TriggersAgree)
    (h : ∀ o, s'.Stored o → s.Stored o) : s'.triggerIds.length ≤ s.triggerIds.length := by
  refine (List.subperm_of_subset (FinMap.nodup_keys _) fun id hid => ?_).length_le
  obtain ⟨o, ho, hid⟩ := (mem_triggerIds hs').mp hid
  exact (mem_triggerIds hs).mpr ⟨o, h o ho, hid⟩

/-- One order less, one id less. -/
theorem triggerIds_lt (hs : s.TriggersAgree) (hs' : s'.TriggersAgree)
    (h : ∀ o, s'.Stored o → s.Stored o) {o : Order} (ho : s.Stored o) (ho' : ¬ s'.Stored o) :
    s'.triggerIds.length < s.triggerIds.length := by
  have hnew : o.id ∉ s'.triggerIds := by
    intro hid
    obtain ⟨o₁, h₁, hid⟩ := (mem_triggerIds hs').mp hid
    rw [hs.eq_of_id (h o₁ h₁) ho hid] at h₁
    exact ho' h₁
  have hsub : o.id :: s'.triggerIds ⊆ s.triggerIds := by
    intro id hid
    rw [mem_triggerIds hs]
    rcases List.mem_cons.mp hid with rfl | hid
    · exact ⟨o, ho, rfl⟩
    · obtain ⟨o₁, h₁, hid⟩ := (mem_triggerIds hs').mp hid
      exact ⟨o₁, h o₁ h₁, hid⟩
  have hnd : (o.id :: s'.triggerIds).Nodup := List.nodup_cons.mpr ⟨hnew, FinMap.nodup_keys _⟩
  exact (List.subperm_of_subset hnd hsub).length_le

/-- The bound on the depth of the recursion counts every id. -/
theorem triggerIds_le_count (hs : s.TriggersAgree) :
    s.triggerIds.length ≤ Engine.triggerCount s := by
  have hlen : ∀ m : FinMap MarketId TriggerMap,
      (m.toList.map fun p => (p.2.toList.map fun q => q.2.length).sum).sum =
        ((m.toList.flatMap fun p => p.2.toList.flatMap (·.2)).map Order.id).length := by
    intro m
    simp only [List.length_map, List.length_flatMap]
  unfold Engine.triggerCount
  simp only [hlen]
  rw [← List.length_append, ← List.map_append]
  refine (List.subperm_of_subset (FinMap.nodup_keys _) fun id hid => ?_).length_le
  obtain ⟨o, ⟨d, m, p, ho⟩, rfl⟩ := (mem_triggerIds hs).mp hid
  refine List.mem_map_of_mem ?_
  have hin : o ∈ (s.triggers d).toList.flatMap fun p => p.2.toList.flatMap (·.2) := by
    unfold triggersAt at ho
    cases hm : (s.triggers d)[m]? with
    | none => simp [hm] at ho
    | some byPrice =>
      cases hp : byPrice[p]? with
      | none => simp [hm, hp] at ho
      | some orders =>
        simp only [hm, hp, Option.bind_some, Option.getD_some] at ho
        refine List.mem_flatMap.mpr ⟨(m, byPrice), FinMap.mem_toList.mpr hm, ?_⟩
        exact List.mem_flatMap.mpr ⟨(p, orders), FinMap.mem_toList.mpr hp, ho⟩
  rw [List.mem_append]
  cases d with
  | above => exact .inl hin
  | below => exact .inr hin

end Ids

end EngineState

namespace Engine

open EngineState

variable {e : Engine}

/-- **A check.** It takes out exactly the stored orders that its mark price fires. -/
theorem takeTriggered_spec (hs : e.state.TriggersAgree) (m : MarketId) (mark : Decimal) :
    (e.takeTriggered m mark).2.state.TriggersAgree ∧
      (∀ o, (e.takeTriggered m mark).2.state.Stored o ↔
        e.state.Stored o ∧ ¬ o.Fires m mark.value) ∧
      (∀ o, o ∈ (e.takeTriggered m mark).1 ↔ e.state.Stored o ∧ o.Fires m mark.value) ∧
      ((e.takeTriggered m mark).1.map (·.id)).Nodup := by
  obtain ⟨hs₁, hst₁, hmem₁, hnd₁⟩ := hs.take .above m mark
  obtain ⟨hs₂, hst₂, hmem₂, hnd₂⟩ := hs₁.take .below m mark
  set s₁ := (e.state.getTriggeredOrders .above m mark).2
  set above := (e.state.getTriggeredOrders .above m mark).1
  set below := (s₁.getTriggeredOrders .below m mark).1
  have hres : e.takeTriggered m mark =
      ((above ++ below).insertionSort fun a b => a.id ≤ b.id,
        { e with state := (s₁.getTriggeredOrders .below m mark).2 }) := rfl
  have hperm : ((above ++ below).insertionSort fun a b => a.id ≤ b.id).Perm (above ++ below) :=
    List.perm_insertionSort _ _
  have hone : ∀ o : Order, o.FiresOn .below m mark.value → ¬ o.FiresOn .above m mark.value := by
    rintro o ⟨-, -, h, -⟩ ⟨-, -, h', -⟩
    rw [h] at h'
    cases h'
  rw [hres]
  refine ⟨hs₂, fun o => ?_, fun o => ?_, ?_⟩
  · rw [hst₂, hst₁, Order.fires_iff, not_or, and_assoc]
  · rw [hperm.mem_iff, List.mem_append, hmem₁, hmem₂, hst₁, Order.fires_iff]
    constructor
    · rintro (⟨h, hf⟩ | ⟨⟨h, -⟩, hf⟩)
      · exact ⟨h, .inl hf⟩
      · exact ⟨h, .inr hf⟩
    · rintro ⟨h, hf | hf⟩
      · exact .inl ⟨h, hf⟩
      · exact .inr ⟨⟨h, hone o hf⟩, hf⟩
  · refine (hperm.map _).nodup_iff.mpr ?_
    rw [List.map_append, List.nodup_append]
    refine ⟨hnd₁, hnd₂, ?_⟩
    intro id hid id' hid' heq
    obtain ⟨o, ho, rfl⟩ := List.mem_map.mp hid
    obtain ⟨o', ho', rfl⟩ := List.mem_map.mp hid'
    obtain ⟨hst, hf⟩ := (hmem₁ o).mp ho
    obtain ⟨hst', hf'⟩ := (hmem₂ o').mp ho'
    obtain rfl := hs.eq_of_id hst ((hst₁ o').mp hst').1 heq
    exact hone o hf' hf

end Engine

end Hypercore
