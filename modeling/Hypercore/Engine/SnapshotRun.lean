import Hypercore.Engine.Snapshot
import Hypercore.Engine.StoresRun
import Hypercore.Engine.TriggerLife
/-!
# Hypercore.Engine.SnapshotRun

What a re-org restores.

Everything but the books and the account lists comes back as it was
(`restore_snapshot`). Books and lists come back as the orders map says, so a restored
engine goes on like the original one exactly when each book holds the recorded orders
and each account's list is in the order in which the orders map was visited.
A self-trade breaks the first.
-/

namespace Hypercore

open Exec Int128

namespace EngineState

/-- Each book holds exactly the recorded orders, and each account's list is in the order in
which the orders map is visited. -/
structure Restorable (ord : HashOrder) (s : EngineState) : Prop where
  books : ∀ (m : MarketId) (b : OrderBook), s.orderbooks[m]? = some b → b.Holds (s.mapOrders m)
  lists : ∀ a m, s.orderIds a m =
    (((ord.visit ((s.orders[m]?).getD ∅).toList).map (·.2)).filter (·.owner = a)).map (·.id)

/-- The orders of a snapshot in one market, as the orders map of the market lists them. -/
theorem inMarket_snapshot {s : EngineState} (ord : HashOrder) (hs : s.Filed) (m : MarketId) :
    inMarket m (s.snapshot ord).orders =
      (ord.visit ((s.orders[m]?).getD ∅).toList).map (·.2) := by
  have hlist : (s.snapshot ord).orders =
      (ord.visit s.orders.toList).flatMap fun p => (ord.visit p.2.toList).map (·.2) := by
    show (ord.entries s.orders).map (·.2.2) = _
    unfold HashOrder.entries
    rw [List.map_flatMap]
    simp only [List.map_map]
    rfl
  have hplace : ∀ (k : MarketId) (os : FinMap OrderId Order), s.orders[k]? = some os →
      ∀ o ∈ (ord.visit os.toList).map (·.2), o.marketId = k := by
    intro k os hk o ho
    obtain ⟨p, hp, rfl⟩ := List.mem_map.mp ho
    have hget := FinMap.mem_toList.mp ((HashOrder.mem_visit ord).mp hp)
    exact (OrderMaps.FilingKept.record_of_get hs hk hget).1
  rw [hlist]
  unfold inMarket
  rw [List.filter_flatMap]
  refine (ord.flatMap_visit_key (k := m) (f := fun _ (os : FinMap OrderId Order) =>
    ((ord.visit os.toList).map (·.2)).filter (·.marketId = m)) fun k os hk hne => ?_).trans ?_
  · refine List.filter_eq_nil_iff.mpr fun o ho => ?_
    simp only [hplace k os hk o ho, decide_eq_true_eq]
    exact hne
  · cases hm : s.orders[m]? with
    | none =>
      have hnil : (ord.visit (∅ : FinMap OrderId Order).toList) = [] :=
        List.Perm.eq_nil ((ord.perm _).trans (by simp [Std.ExtTreeMap.toList_eq_nil_iff]))
      simp [hnil]
    | some os =>
      rw [Option.map_some, Option.getD_some, Option.getD_some]
      exact List.filter_eq_self.mpr fun o ho => decide_eq_true (hplace m os hm o ho)

theorem mem_snapshot_orders {s : EngineState} {ord : HashOrder} (hs : s.Filed) {o : Order} :
    o ∈ (s.snapshot ord).orders ↔ s.getOrder o.marketId o.id = some o := by
  show o ∈ (ord.entries s.orders).map (·.2.2) ↔ _
  rw [List.mem_map]
  constructor
  · rintro ⟨x, hx, rfl⟩
    have hget : s.getOrder x.1 x.2.1 = some x.2.2 := (HashOrder.mem_entries ord).mp hx
    obtain ⟨h1, h2, -⟩ := hs.record _ _ _ hget
    rw [h1, h2, hget]
  · intro h
    exact ⟨(o.marketId, o.id, o), (HashOrder.mem_entries ord).mpr h, rfl⟩

theorem pairwise_snapshot_orders {s : EngineState} (ord : HashOrder) (hs : s.Filed) :
    (s.snapshot ord).orders.Pairwise fun o o' => o.marketId = o'.marketId → o.id ≠ o'.id := by
  show ((ord.entries s.orders).map (·.2.2)).Pairwise _
  rw [List.pairwise_map]
  refine (HashOrder.nodup_entries ord s.orders).imp_of_mem fun {x y} hx hy hne h1 h2 => hne ?_
  obtain ⟨a, i, o⟩ := x
  obtain ⟨b, j, o'⟩ := y
  have hgx : s.getOrder a i = some o := (HashOrder.mem_entries ord).mp hx
  have hgy : s.getOrder b j = some o' := (HashOrder.mem_entries ord).mp hy
  obtain ⟨hm, hid, -⟩ := hs.record _ _ _ hgx
  obtain ⟨hm', hid', -⟩ := hs.record _ _ _ hgy
  obtain rfl : a = b := hm.symm.trans (h1.trans hm')
  obtain rfl : i = j := hid.symm.trans (h2.trans hid')
  rw [Option.some.inj (hgx.symm.trans hgy)]

/-! ### Trigger orders -/

section Triggers

variable {s : EngineState} (ht : s.TriggersAgree)

include ht

/-- The order stands where its own terms say. -/
theorem listTriggers_filed (ord : HashOrder) {d : TriggerDirection} {o : Order} :
    o ∈ s.listTriggers ord d ↔ s.Stored o ∧ o.triggerDirection = some d := by
  unfold listTriggers
  rw [List.mem_flatMap]
  constructor
  · rintro ⟨p, hp, ho⟩
    obtain ⟨q, hq, ho⟩ := List.mem_flatMap.mp ho
    have hat : o ∈ s.triggersAt d p.1 q.1 := by
      unfold triggersAt
      rw [FinMap.mem_toList.mp ((HashOrder.mem_visit ord).mp hp), Option.bind_some,
        FinMap.mem_toList.mp hq]
      exact ho
    exact ⟨⟨_, _, _, hat⟩, (ht.filed _ _ _ _ hat).2.1⟩
  · rintro ⟨⟨d', m, p, ho⟩, hd⟩
    obtain rfl := Option.some.inj ((ht.filed _ _ _ _ ho).2.1.symm.trans hd)
    unfold triggersAt at ho
    cases hm : (s.triggers d')[m]? with
    | none => simp [hm] at ho
    | some byPrice =>
      rw [hm, Option.bind_some] at ho
      cases hp : byPrice[p]? with
      | none => simp [hp] at ho
      | some os =>
        rw [hp] at ho
        exact ⟨(m, byPrice), (HashOrder.mem_visit ord).mpr (FinMap.mem_toList.mpr hm),
          List.mem_flatMap.mpr ⟨(p, os), FinMap.mem_toList.mpr hp, ho⟩⟩

/-- Orders of one direction, market and price are listed in their order. -/
theorem filedAt_listTriggers (ord : HashOrder) (d d' : TriggerDirection) (m : MarketId) (p : Int) :
    filedAt d m p (s.listTriggers ord d') = if d' = d then s.triggersAt d m p else [] := by
  split
  · rename_i hd
    subst hd
    have hat : ∀ (k : MarketId) (byPrice : TriggerMap) (q : Int) (os : List Order),
        (s.triggers d')[k]? = some byPrice → byPrice[q]? = some os →
        ∀ o ∈ os, o ∈ s.triggersAt d' k q := by
      intro k byPrice q os hk hq o ho
      unfold triggersAt
      rw [hk, Option.bind_some, hq]
      exact ho
    unfold filedAt listTriggers
    rw [List.filter_flatMap]
    refine (ord.flatMap_visit_key (k := m) (f := fun _ (byPrice : TriggerMap) =>
      (byPrice.toList.flatMap (·.2)).filter fun o => o.triggerDirection = some d' ∧
        o.marketId = m ∧ o.triggerPrice.map (·.value) = some p) fun k byPrice hk hne => ?_).trans ?_
    · refine List.filter_eq_nil_iff.mpr fun o ho => ?_
      obtain ⟨q, hq, ho⟩ := List.mem_flatMap.mp ho
      have hfiled := ht.filed _ _ _ o (hat k byPrice q.1 q.2 hk (FinMap.mem_toList.mp hq) o ho)
      simp only [hfiled.1, decide_eq_true_eq]
      exact fun h => hne h.2.1
    · unfold triggersAt
      cases hm : (s.triggers d')[m]? with
      | none => rfl
      | some byPrice =>
        rw [Option.map_some, Option.getD_some, Option.bind_some, List.filter_flatMap]
        refine (HashOrder.sorted.flatMap_visit_key (k := p) (f := fun _ (os : List Order) =>
          os.filter fun o => o.triggerDirection = some d' ∧ o.marketId = m ∧
            o.triggerPrice.map (·.value) = some p) fun q os hq hne => ?_).trans ?_
        · refine List.filter_eq_nil_iff.mpr fun o ho => ?_
          have hfiled := ht.filed _ _ _ o (hat m byPrice q os hm hq o ho)
          simp only [hfiled.2.2.1, decide_eq_true_eq, Option.some.injEq]
          exact fun h => hne h.2.2
        · cases hp : byPrice[p]? with
          | none => rfl
          | some os =>
            rw [Option.map_some, Option.getD_some, Option.getD_some]
            refine List.filter_eq_self.mpr fun o ho => decide_eq_true ?_
            obtain ⟨h1, h2, h3, -⟩ := ht.filed _ _ _ o (hat m byPrice p os hm hp o ho)
            exact ⟨h2, h1, h3⟩
  · rename_i hd
    refine List.filter_eq_nil_iff.mpr fun o ho => ?_
    have hdir := ((listTriggers_filed ht ord).mp ho).2
    simp only [hdir, decide_eq_true_eq, Option.some.injEq]
    exact fun h => hd h.1

end Triggers

/-! ### The stages of a restore -/

section Stages

variable {s c : EngineState} (ord : HashOrder)

/-- Copied maps of positions come back as they were. -/
theorem positions_snapshot (hopen : Engine.PositionsOpen s) :
    FinMap.insertAllIn ∅ (ord.entries s.positions) = s.positions := by
  refine ord.insertAllIn_entries fun a ps hps => ?_
  obtain ⟨m, p, hp⟩ := hopen a ps hps
  unfold getPosition at hp
  rw [hps] at hp
  exact ⟨m, p, hp⟩

/-- **Markets.** They come back, each with an empty book. -/
theorem addMarkets_snapshot (hmarkets : Engine.MarketsFiled s)
    (hlisted : ∀ m : MarketId, (s.orderbooks[m]?).isSome = (s.markets[m]?).isSome)
    (hcm : c.markets = ∅) (hcb : c.orderbooks = ∅) (hco : c.orders = ∅)
    (hca : c.accountOrders = ∅) :
    ∃ orderbooks orders, (s.snapshot ord).markets.foldl addMarket c =
        { c with markets := s.markets, orderbooks, orders } ∧
      Filed { c with markets := s.markets, orderbooks, orders } ∧
      Rests { c with markets := s.markets, orderbooks, orders } [] ∧
      ∀ m : MarketId, (orderbooks[m]?).isSome = (s.orderbooks[m]?).isSome := by
  have hmem : ∀ market,
      market ∈ (s.snapshot ord).markets ↔ s.markets[market.id]? = some market := by
    intro market
    show market ∈ (ord.visit s.markets.toList).map (·.2) ↔ _
    rw [List.mem_map]
    constructor
    · rintro ⟨p, hp, rfl⟩
      have hget := FinMap.mem_toList.mp ((HashOrder.mem_visit ord).mp hp)
      rw [hmarkets p.1 p.2 hget, hget]
    · intro h
      exact ⟨(market.id, market), (HashOrder.mem_visit ord).mpr (FinMap.mem_toList.mpr h), rfl⟩
  obtain ⟨hm, hb, ho⟩ := addMarkets_spec (l := (s.snapshot ord).markets) hcm hcb hco
    fun market h market' h' hid => by
      rw [hmem, hid, (hmem _).mp h'] at h
      exact (Option.some.inj h).symm
  obtain ⟨markets, orderbooks, orders, hlist⟩ := addMarkets_only (s.snapshot ord).markets c
  rw [hlist] at hm hb ho
  dsimp only at hm hb ho
  have hhas : ∀ k : MarketId, (∃ market ∈ (s.snapshot ord).markets, market.id = k) ↔
      (s.markets[k]?).isSome := by
    intro k
    rw [Option.isSome_iff_exists]
    constructor
    · rintro ⟨market, h, rfl⟩
      exact ⟨market, (hmem _).mp h⟩
    · rintro ⟨market, h⟩
      have hid := hmarkets k market h
      exact ⟨market, (hmem _).mpr (by rw [hid, h]), hid⟩
  obtain rfl : markets = s.markets := by
    refine Std.ExtTreeMap.ext_getElem? fun k => Option.ext fun market => ?_
    rw [hm, hmem]
    exact ⟨fun ⟨h, hk⟩ => hk ▸ h, fun h => by rw [hmarkets k market h]; exact ⟨h, rfl⟩⟩
  have hno : ∀ (m : MarketId) (id : OrderId), (orders[m]?).bind (·[id]?) = none := by
    intro m id
    cases hos : orders[m]? with
    | none => rfl
    | some os =>
      obtain ⟨rfl, -⟩ := (ho m os).mp hos
      simp
  refine ⟨orderbooks, orders, hlist, ⟨fun m => ?_, fun m id o h => ?_, fun m b h => ?_⟩,
    ⟨fun m id o => ?_, fun m b h => ?_, fun a m => ?_⟩, fun m => ?_⟩
  · show (orders[m]?).isSome = (orderbooks[m]?).isSome
    rw [Bool.eq_iff_iff]
    simp only [Option.isSome_iff_exists, hb, ho]
    exact ⟨fun ⟨_, _, h⟩ => ⟨_, rfl, h⟩, fun ⟨_, _, h⟩ => ⟨_, rfl, h⟩⟩
  · exact absurd ((hno m id).symm.trans h) (by simp)
  · obtain ⟨rfl, -⟩ := (hb m b).mp h
    exact fun t => by cases t <;> rfl
  · constructor
    · intro h
      exact absurd ((hno m id).symm.trans h) (by simp)
    · rintro ⟨h, -⟩
      cases h
  · obtain ⟨rfl, -⟩ := (hb m b).mp h
    exact .new
  · show ((c.accountOrders[a]?).bind (·[m]?)).getD [] = []
    rw [hca]
    simp
  · rw [hlisted m, Bool.eq_iff_iff, ← hhas, Option.isSome_iff_exists]
    exact ⟨fun ⟨b, h⟩ => ((hb m b).mp h).2, fun h => ⟨_, (hb m _).mpr ⟨rfl, h⟩⟩⟩

/-- **Orders.** The orders map comes back, and the three places hold its orders. -/
theorem addOrders_snapshot (hs : s.Filed) (hc : c.Filed) (hrests : c.Rests [])
    (hbooks : ∀ m : MarketId, (c.orderbooks[m]?).isSome = (s.orderbooks[m]?).isSome) :
    ∃ orderbooks accountOrders, (s.snapshot ord).orders.foldlM addOrder c =
        .ok { c with orders := s.orders, orderbooks, accountOrders } ∧
      Filed { c with orders := s.orders, orderbooks, accountOrders } ∧
      Rests { c with orders := s.orders, orderbooks, accountOrders } (s.snapshot ord).orders ∧
      ∀ m : MarketId, (orderbooks[m]?).isSome = (s.orderbooks[m]?).isSome := by
  obtain ⟨r, hadd, hrests, hkept, honly⟩ := hrests.addOrders (l := (s.snapshot ord).orders) hc
    (fun o h => by
      have hget := (mem_snapshot_orders hs).mp h
      refine ⟨?_, (hs.record _ _ _ hget).2.2⟩
      obtain ⟨os, hos, -⟩ := Option.bind_eq_some_iff.mp hget
      have hboth : (s.orders[o.marketId]?).isSome = (s.orderbooks[o.marketId]?).isSome :=
        hs.both _
      rw [hbooks, ← hboth, hos]
      rfl)
    (pairwise_snapshot_orders ord hs)
  rw [List.nil_append] at hrests
  have hfiled := hkept.filed hc
  have hdomain : ∀ m : MarketId, (r.orderbooks[m]?).isSome = (s.orderbooks[m]?).isSome :=
    fun m => (hkept.books m).trans (hbooks m)
  have hget : ∀ m id, r.getOrder m id = s.getOrder m id := by
    intro m id
    refine Option.ext fun o => ?_
    rw [hrests.record, mem_inMarket, mem_snapshot_orders hs]
    constructor
    · rintro ⟨⟨h, rfl⟩, rfl⟩
      exact h
    · intro h
      obtain ⟨h1, h2, -⟩ := hs.record m id o h
      rw [h1, h2]
      exact ⟨⟨h, rfl⟩, rfl⟩
  have horders : r.orders = s.orders := by
    refine Std.ExtTreeMap.ext_getElem? fun m => ?_
    have hsome : (r.orders[m]?).isSome = (s.orders[m]?).isSome :=
      (hfiled.both m).trans ((hdomain m).trans (hs.both m).symm)
    cases hm : s.orders[m]? with
    | none =>
      rw [hm, Option.isSome_none] at hsome
      exact Option.not_isSome_iff_eq_none.mp (by simp [hsome])
    | some os =>
      rw [hm, Option.isSome_some] at hsome
      obtain ⟨os', hm'⟩ := Option.isSome_iff_exists.mp hsome
      rw [hm']
      refine congrArg some (Std.ExtTreeMap.ext_getElem? fun id => ?_)
      have h := hget m id
      unfold getOrder at h
      rw [hm, hm'] at h
      exact h
  obtain ⟨orders, orderbooks, accountOrders, rfl⟩ := honly
  obtain rfl : orders = s.orders := horders
  exact ⟨orderbooks, accountOrders, hadd, hfiled, hrests, hdomain⟩

/-- **Trigger orders.** Their lists and their index come back. -/
theorem addTriggerOrders_snapshot (ht : s.TriggersAgree) (habove : c.triggerOrdersAbove = ∅)
    (hbelow : c.triggerOrdersBelow = ∅) (hindex : c.triggerOrderIndex = ∅) :
    ∃ triggerOrdersAbove triggerOrdersBelow,
      (s.snapshot ord).triggerOrders.foldl addTriggerOrder c = { c with
        triggerOrdersAbove, triggerOrdersBelow, triggerOrderIndex := s.triggerOrderIndex } ∧
      ∀ d m p, triggersAt { c with
        triggerOrdersAbove, triggerOrdersBelow, triggerOrderIndex := s.triggerOrderIndex } d m p =
        s.triggersAt d m p := by
  have hstored : ∀ o, o ∈ (s.snapshot ord).triggerOrders ↔ s.Stored o := by
    intro o
    show o ∈ s.listTriggers ord .above ++ s.listTriggers ord .below ↔ _
    rw [List.mem_append, listTriggers_filed ht, listTriggers_filed ht, ← and_or_left,
      and_iff_left_iff_imp]
    rintro ⟨d, m, p, h⟩
    rw [(ht.filed d m p o h).2.1]
    cases d <;> simp
  have hpriced : ∀ o ∈ (s.snapshot ord).triggerOrders,
      o.triggerPrice.isSome ∧ o.triggerDirection.isSome := by
    intro o h
    obtain ⟨d, m, p, hat⟩ := (hstored o).mp h
    obtain ⟨-, hd, hp, -⟩ := ht.filed d m p o hat
    obtain ⟨price, hprice, -⟩ := Option.map_eq_some_iff.mp hp
    exact ⟨by rw [hprice]; rfl, by rw [hd]; rfl⟩
  obtain ⟨⟨above, below, index, hfold⟩, hat⟩ := addTriggerOrders_spec _ c hpriced
  have hix := addTriggerOrders_index _ c hpriced hindex fun o h o' h' hid =>
    ht.eq_of_id ((hstored o).mp h) ((hstored o').mp h') hid
  rw [hfold] at hat hix
  obtain rfl : index = s.triggerOrderIndex := by
    refine Std.ExtTreeMap.ext_getElem? fun id => Option.ext fun x => ?_
    obtain ⟨m, d, p⟩ := x
    rw [hix]
    constructor
    · rintro ⟨o, ho, rfl, h1, h2, h3⟩
      exact (ht.filed _ _ _ o (ht.mem_at.mpr ⟨(hstored o).mp ho, h1, h2, h3⟩)).2.2.2
    · intro h
      obtain ⟨o, ho, hid⟩ := ht.found id m d p h
      obtain ⟨h1, h2, h3, -⟩ := ht.filed d m p o ho
      exact ⟨o, (hstored o).mpr ⟨d, m, p, ho⟩, hid, h1, h2, h3⟩
  refine ⟨above, below, hfold, fun d m p => (hat d m p).trans ?_⟩
  have hempty : c.triggersAt d m p = [] := by
    cases d <;> simp [triggersAt, triggers, habove, hbelow]
  show c.triggersAt d m p ++ (s.listTriggers ord .above ++ s.listTriggers ord .below).filter _ = _
  rw [hempty, List.nil_append, List.filter_append]
  refine (congrArg₂ (· ++ ·) (filedAt_listTriggers ht ord d .above m p)
    (filedAt_listTriggers ht ord d .below m p)).trans ?_
  cases d <;> simp

/-- **What a restore brings back.** Everything of `s` but books and account lists; these
hold the orders of the snapshot. -/
theorem restore_snapshot (t : EngineState) (hs : s.Filed)
    (hlisted : ∀ m : MarketId, (s.orderbooks[m]?).isSome = (s.markets[m]?).isSome)
    (hmarkets : Engine.MarketsFiled s) (hopen : Engine.PositionsOpen s) (ht : s.TriggersAgree) :
    ∃ r, t.restore (s.snapshot ord) = .ok r ∧ r.Filed ∧ r.Rests (s.snapshot ord).orders ∧
      (∀ m : MarketId, (r.orderbooks[m]?).isSome = (s.orderbooks[m]?).isSome) ∧
      Alike s { r with orderbooks := s.orderbooks, accountOrders := s.accountOrders } := by
  let c : EngineState := { t.clear with
    accounts := t.clear.accounts.insertAll (s.snapshot ord).accounts
    positions := t.clear.positions.insertAllIn (s.snapshot ord).positions
    leverage := t.clear.leverage.insertAllIn (s.snapshot ord).leverage }
  obtain ⟨b₁, o₁, h1, hf₁, hr₁, hb₁⟩ := addMarkets_snapshot (c := c) ord hmarkets hlisted rfl rfl
    rfl rfl
  obtain ⟨b₂, a₂, h2, hf₂, hr₂, hb₂⟩ := addOrders_snapshot ord hs hf₁ hr₁ hb₁
  obtain ⟨above, below, h3, hat⟩ := addTriggerOrders_snapshot (c := { c with
    markets := s.markets, orders := s.orders, orderbooks := b₂, accountOrders := a₂
    marginMode := c.marginMode.insertAll (s.snapshot ord).marginModes }) ord ht rfl rfl rfl
  refine ⟨{ c with
    markets := s.markets, orders := s.orders, orderbooks := b₂, accountOrders := a₂
    marginMode := c.marginMode.insertAll (s.snapshot ord).marginModes
    triggerOrdersAbove := above, triggerOrdersBelow := below
    triggerOrderIndex := s.triggerOrderIndex
    insuranceFund := s.insuranceFund, nextOrderId := s.nextOrderId }, ?_, ?_, ?_, hb₂, ?_⟩
  · unfold restore
    dsimp only
    rw [h1, h2, Exec.ok_bind, h3]
    rfl
  · exact ⟨hf₂.both, hf₂.record, hf₂.caches⟩
  · exact ⟨hr₂.record, hr₂.books, hr₂.lists⟩
  · exact {
      accounts := ord.insertAll_visit s.accounts
      positions := positions_snapshot ord hopen
      markets := rfl
      orderbooks := rfl
      orders := rfl
      insuranceFund := rfl
      nextOrderId := rfl
      marginMode := ord.insertAll_visit s.marginMode
      triggerOrderIndex := rfl
      getLeverage := fun a m => congrArg (·.getD 10) (ord.get_insertAllIn_entries s.leverage a m)
      orderIds := fun _ _ => rfl
      triggersAt := hat }

end Stages

/-! ### When a state is restorable -/

/-- Books that agree with the orders map hold its orders. -/
theorem Stores.holds {s : EngineState} (hs : Stores s) (hf : s.Filed) {m : MarketId}
    {b : OrderBook} (hm : s.orderbooks[m]? = some b) : b.Holds (s.mapOrders m) := by
  have hb := hs.books.wf m b hm
  have hmem : ∀ o, o ∈ s.mapOrders m ↔ b.get o.id = some o := by
    intro o
    rw [mem_mapOrders fun id o h => (hf.record m id o h).2.1, hs.agree, bookGet, hm,
      Option.bind_some]
  exact hb.holds hmem

/-- An account's list has the ids of its recorded orders, in some order. -/
theorem Records.lists_perm {s : EngineState} (hr : Records s) (hf : s.Filed) (ord : HashOrder)
    (a : AccountAddress) (m : MarketId) : (s.orderIds a m).Perm
      ((((ord.visit ((s.orders[m]?).getD ∅).toList).map (·.2)).filter (·.owner = a)).map
        (·.id)) := by
  have hid : ∀ id o, s.getOrder m id = some o → o.id = id := fun id o h => (hf.record m id o h).2.1
  have hvisit : ((ord.visit ((s.orders[m]?).getD ∅).toList).map (·.2)).Perm (s.mapOrders m) :=
    (ord.perm _).map _
  have hmem : ∀ o, o ∈ (ord.visit ((s.orders[m]?).getD ∅).toList).map (·.2) ↔
      s.getOrder m o.id = some o := fun o => by rw [hvisit.mem_iff, mem_mapOrders hid]
  have hcount : ∀ id, (s.orderIds a m).count id = if s.ownedBy a m id then 1 else 0 :=
    hr.index a m
  have hlist : (s.orderIds a m).Nodup := by
    rw [List.nodup_iff_count_le_one]
    intro id
    rw [hcount]
    split <;> omega
  have hvisited : ((((ord.visit ((s.orders[m]?).getD ∅).toList).map (·.2)).filter
      (·.owner = a)).map (·.id)).Nodup := by
    refine List.Nodup.map_on (fun o ho o' ho' h => ?_)
      ((hvisit.nodup_iff.mpr (nodup_mapOrders hid)).filter _)
    have h1 := (hmem o).mp (List.mem_filter.mp ho).1
    have h2 := (hmem o').mp (List.mem_filter.mp ho').1
    rw [h, h2] at h1
    exact (Option.some.inj h1).symm
  rw [List.perm_ext_iff_of_nodup hlist hvisited]
  intro id
  rw [← List.count_pos_iff, hcount, List.mem_map]
  constructor
  · intro h
    split at h
    · rename_i hown
      unfold ownedBy at hown
      cases ho : s.getOrder m id with
      | none => simp [ho] at hown
      | some o =>
        rw [ho, Option.any_some] at hown
        have hoid := hid id o ho
        exact ⟨o, List.mem_filter.mpr ⟨(hmem o).mpr (by rw [hoid, ho]), hown⟩, hoid⟩
    · omega
  · rintro ⟨o, ho, rfl⟩
    obtain ⟨ho, hown⟩ := List.mem_filter.mp ho
    have hget := (hmem o).mp ho
    simp [ownedBy, hget, of_decide_eq_true hown]

/-- With the three places in agreement and lists of at most one order, the order in which
maps are visited does not matter. -/
theorem Stores.restorable {s : EngineState} (hs : Stores s) (hf : s.Filed)
    (hshort : ∀ a m, (s.orderIds a m).length ≤ 1) (ord : HashOrder) : s.Restorable ord := by
  refine ⟨fun m b hm => hs.holds hf hm, fun a m => ?_⟩
  have hperm := hs.records.lists_perm hf ord a m
  have hlen := hshort a m
  cases hl : s.orderIds a m with
  | nil =>
    rw [hl] at hperm
    exact hperm.symm.eq_nil.symm
  | cons id l =>
    rw [hl, List.length_cons] at hlen
    obtain rfl : l = [] := List.length_eq_zero_iff.mp (by omega)
    rw [hl] at hperm
    exact List.singleton_perm.mp hperm

/-- **The exact condition.** A state that holds the orders of the snapshot is alike the
original exactly when that was restorable. -/
theorem alike_iff {s r : EngineState} {ord : HashOrder} (hs : s.Filed) (hr : r.Filed)
    (hrests : r.Rests (s.snapshot ord).orders)
    (hbooks : ∀ m : MarketId, (r.orderbooks[m]?).isSome = (s.orderbooks[m]?).isSome)
    (h : Alike s { r with orderbooks := s.orderbooks, accountOrders := s.accountOrders }) :
    s.Alike r ↔ s.Restorable ord := by
  have hsame : ∀ m (b : OrderBook), b.Holds (inMarket m (s.snapshot ord).orders) ↔
      b.Holds (s.mapOrders m) := by
    intro m b
    have hmem : ∀ o, o ∈ inMarket m (s.snapshot ord).orders ↔ o ∈ s.mapOrders m := by
      intro o
      rw [inMarket_snapshot ord hs]
      exact ((ord.perm _).map _).mem_iff
    exact ⟨fun hb => hb.congr hmem, fun hb => hb.congr fun o => (hmem o).symm⟩
  constructor
  · intro ha
    refine ⟨fun m b hb => ?_, fun a m => ?_⟩
    · rw [← ha.orderbooks] at hb
      exact (hsame m b).mp (hrests.books m b hb)
    · rw [← ha.orderIds, hrests.lists, inMarket_snapshot ord hs]
  · intro hrest
    have horderbooks : r.orderbooks = s.orderbooks := by
      refine Std.ExtTreeMap.ext_getElem? fun m => ?_
      have hsome := hbooks m
      cases hm : s.orderbooks[m]? with
      | none =>
        rw [hm, Option.isSome_none] at hsome
        exact Option.not_isSome_iff_eq_none.mp (by simp [hsome])
      | some b =>
        rw [hm, Option.isSome_some] at hsome
        obtain ⟨b', hb'⟩ := Option.isSome_iff_exists.mp hsome
        rw [hb']
        exact congrArg some ((hrests.books m b' hb').unique
          ((hsame m b).mpr (hrest.books m b hm)) (hr.caches m b' hb') (hs.caches m b hm))
    refine { h with orderbooks := horderbooks, orderIds := fun a m => ?_ }
    rw [hrests.lists, inMarket_snapshot ord hs, hrest.lists]

end EngineState

namespace Engine

open EngineState

/-- Restoring the snapshot of the engine's state into `t` brings back all that operations
read, and every later sequence of operations returns the same. -/
def SnapshotFaithful (ord : HashOrder) (e : Engine) (t : EngineState) : Prop :=
  ∃ r, t.restore (e.state.snapshot ord) = .ok r ∧ e.state.Alike r ∧
    ∀ ops, Prod.fst <$> performAll ops { e with state := r } = Prod.fst <$> performAll ops e

/-- **Snapshot and restore.** From a reachable engine, into whatever state, a restore is faithful
if and only if the books and the account lists are those of the orders map. Restore builds books
and lists from the orders map; if they come back `Alike`, so does every answer. -/
theorem snapshot_faithful_iff {e : Engine} (h : Reachable e) (ord : HashOrder)
    (t : EngineState) : SnapshotFaithful ord e t ↔ e.state.Restorable ord := by
  obtain ⟨D, hw, hrep, -⟩ := reachable_represents h
  obtain ⟨r, hrestore, hr, hrests, hbooks, halike⟩ := restore_snapshot ord t h.filed h.listed
    h.marketsFiled h.positionsOpen hrep.agree
  have hiff := alike_iff h.filed hr hrests hbooks halike
  constructor
  · rintro ⟨r', hrestore', ha, -⟩
    obtain rfl := ok_unique hrestore hrestore'
    exact hiff.mp ha
  · intro hrest
    have ha := hiff.mpr hrest
    refine ⟨r, hrestore, ha, fun ops => ?_⟩
    have hsim := Alike.performAll (e := e) ⟨r, rfl, ha⟩ ops
    exact (hsim.mono fun x y hxy => hxy.1).map_eq.symm

/-- The lists of the account index, as far as they are longer than one. -/
def longLists (s : EngineState) : List (List OrderId) :=
  (s.accountOrders.toList.flatMap fun p => p.2.toList.map (·.2)).filter fun ids => 1 < ids.length

theorem short_of_longLists {s : EngineState} (h : longLists s = []) (a : AccountAddress)
    (m : MarketId) : (s.orderIds a m).length ≤ 1 := by
  unfold orderIds
  cases ha : s.accountOrders[a]? with
  | none => simp
  | some lists =>
    rw [Option.bind_some]
    cases hm : lists[m]? with
    | none => simp
    | some ids =>
      have hmem : ids ∈ s.accountOrders.toList.flatMap fun p => p.2.toList.map (·.2) :=
        List.mem_flatMap.mpr ⟨(a, lists), FinMap.mem_toList.mpr ha,
          List.mem_map.mpr ⟨(m, ids), FinMap.mem_toList.mpr hm, rfl⟩⟩
      have hshort := List.filter_eq_nil_iff.mp h ids hmem
      simpa using hshort

/-- The rest of an order that was filled in part, restored into the state without it. -/
theorem snapshot_faithful_iff_resting : ∃ e t : Engine, Reachable e ∧ Reachable t ∧
    (e.state.mapOrders 0).length = 1 ∧ (t.state.mapOrders 0).length = 0 ∧
    (SnapshotFaithful .reversed e t.state ↔ e.state.Restorable .reversed) ∧
    SnapshotFaithful .reversed e t.state := by
  obtain ⟨e, he, htest⟩ := exists_of_test (x := btcChecked (SubmitsMeet Clean) none partFill)
    (p := fun e => decide ((e.state.mapOrders 0).length = 1 ∧ longLists e.state = []))
    (by decide +kernel)
  obtain ⟨t, ht, hnone⟩ := exists_of_test (x := btcRun none [.deposit 1 100000000000])
    (p := fun e => decide ((e.state.mapOrders 0).length = 0)) (by decide +kernel)
  obtain ⟨hlen, hshort⟩ := of_decide_eq_true htest
  have hreach := btcChecked_reachableWith he
  have hr : Reachable e := by
    obtain ⟨e₀, hf, hrun⟩ := hreach
    exact ⟨e₀, hf, hrun.mono fun _ _ _ => trivial⟩
  have hiff := snapshot_faithful_iff hr .reversed t.state
  have hstores := hreach.induction (P := fun e => Stores e.state) (fun _ => Fresh.stores)
    fun _ _ _ hs hc hstep => step_stores hs hc hstep
  exact ⟨e, t, hr, btcRun_reachable ht, hlen, of_decide_eq_true hnone, hiff,
    hiff.mpr (hstores.restorable hr.filed (short_of_longLists hshort) .reversed)⟩

/-- How many fills the placements of a sequence return. -/
def countFills : List Outcome → Nat
  | [] => 0
  | .placed (.ok (_, fills)) :: rs => fills.length + countFills rs
  | _ :: rs => countFills rs

/-- Account 1 sells and takes its own order off the book by buying; the order stays in the
orders map. Without a restore a buy of account 2 rests, after one it meets that order. -/
theorem ghost_order_restored : ∃ (e : Engine) (r : EngineState) (ops : List Op), Reachable e ∧
    e.state.restore (e.state.snapshot .sorted) = .ok r ∧
    (fun x => countFills x.1) <$> performAll ops e = .ok 0 ∧
    (fun x => countFills x.1) <$> performAll ops { e with state := r } = .ok 1 ∧
    ¬ SnapshotFaithful .sorted e e.state := by
  let ops : List Op := [.placeOrder 2 (limitOrder .buy .gtc 6500000000000 10000000) 7]
  obtain ⟨e, he, htest⟩ := exists_of_test (x := btcRun none [.deposit 1 100000000000,
      .deposit 2 100000000000,
      .placeOrder 1 (limitOrder .sell .gtc 6500000000000 10000000) 5,
      .placeOrder 1 (limitOrder .buy .ioc 6500000000000 10000000) 6])
    (p := fun e => decide ((fun x => countFills x.1) <$> performAll ops e = (.ok 0 : Exec Nat)) &&
      decide ((do
        let r ← e.state.restore (e.state.snapshot .sorted)
        let x ← performAll ops { e with state := r }
        return countFills x.1 : Exec Nat) = .ok 1)) (by decide +kernel)
  simp only [Bool.and_eq_true, decide_eq_true_eq] at htest
  obtain ⟨hbefore, hafter⟩ := htest
  obtain ⟨r, hr, hafter⟩ := bind_inv hafter
  obtain ⟨x, hx, hcount⟩ := bind_inv hafter
  have hafter : (fun x => countFills x.1) <$> performAll ops { e with state := r } = .ok 1 :=
    map_eq_ok.mpr ⟨x, hx, pure_inv hcount⟩
  refine ⟨e, r, ops, btcRun_reachable he, hr, hbefore, hafter, ?_⟩
  rintro ⟨r', hr', -, hsame⟩
  obtain rfl := ok_unique hr hr'
  have hcounts := congrArg (Functor.map countFills) (hsame ops)
  simp only [Functor.map_map] at hcounts
  have := hafter.symm.trans (hcounts.trans hbefore)
  cases this

end Engine

end Hypercore
