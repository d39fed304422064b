import Hypercore.Spot.Snapshot
/-!
# Hypercore.Spot.Stores

The orders map, the books and the account index of the spot engine hold the same orders.

A matching call works on the book alone and notes which makers it filled; the map and the
index are brought in line afterwards. Both are described by the same function of what rests
(`restated`), so they agree again before anything can fail.
-/

namespace Hypercore

open Exec Int128

/-- Owner and remaining size. -/
def Order.stake (o : Order) : AccountAddress × Decimal := (o.owner, o.remainingSize)

namespace SpotEngineState

/-! ### Agreement -/

/-- In a market the three stores hold the same orders, each once, with the same owners and
remaining sizes. -/
structure StoresAgree (s : SpotEngineState) (m : SpotMarketId) : Prop where
  book_nodup : ∀ b, s.orderbooks[m]? = some b → (b.getAllOrders.map (·.id)).Nodup
  book_iff : ∀ b, s.orderbooks[m]? = some b → ∀ id p,
    (∃ o ∈ b.getAllOrders, o.id = id ∧ o.stake = p) ↔
      ∃ o, s.getOrder m id = some o ∧ o.id = id ∧ o.stake = p
  no_book : s.orderbooks[m]? = none → ∀ id, s.getOrder m id = none
  index_nodup : ∀ a, (s.orderIds a m).Nodup
  index_iff : ∀ a id, id ∈ s.orderIds a m ↔ ∃ o, s.getOrder m id = some o ∧ o.owner = a

/-- What a record says of an order, less its status. -/
def inRecords (s : SpotEngineState) (m : SpotMarketId) (id : OrderId) : Option Order :=
  (s.getOrder m id).map (·.unstated)

/-- What a book says of an order, less its status. -/
def inBook (b : OrderBook) (id : OrderId) : Option Order := (b.get id).map (·.unstated)

/-- Records have their own id, one that was given out, and the index lists each of them once,
under its owner. -/
structure Indexed (s : SpotEngineState) : Prop where
  id_eq : ∀ (m : SpotMarketId) id o, s.getOrder m id = some o → o.id = id
  below : ∀ (m : SpotMarketId) id o, s.getOrder m id = some o → id < s.nextOrderId
  nodup : ∀ a m, (s.orderIds a m).Nodup
  mem : ∀ a m id, id ∈ s.orderIds a m ↔ ∃ o, s.getOrder m id = some o ∧ o.owner = a

/-- A market has all of its stores or none, and its book is well formed and holds what is
recorded. -/
structure Booked (s : SpotEngineState) : Prop where
  paired : ∀ m : SpotMarketId, (s.orderbooks[m]?).isSome = (s.orders[m]?).isSome
  wf : ∀ (m : SpotMarketId) b, s.orderbooks[m]? = some b → b.WF
  same : ∀ (m : SpotMarketId) b, s.orderbooks[m]? = some b →
    ∀ id, inBook b id = s.inRecords m id

/-- Everything the calls keep. -/
structure Coherent (s : SpotEngineState) : Prop where
  indexed : s.Indexed
  booked : s.Booked
  /-- A market has a book. -/
  listed : ∀ m : SpotMarketId, (s.orderbooks[m]?).isSome = (s.markets[m]?).isSome
  /-- Market ids are given out in order. -/
  bounded : ∀ m : SpotMarketId, (s.markets[m]?).isSome → m < s.nextMarketId

variable {s s' t : SpotEngineState} {m k : SpotMarketId} {id : OrderId} {a : AccountAddress}

theorem Coherent.storesAgree (h : s.Coherent) (m : SpotMarketId) : s.StoresAgree m where
  book_nodup b hb := by
    have hwf := h.booked.wf m b hb
    refine List.Nodup.map_on (fun o ho o' ho' heq => ?_) hwf.nodup_getAllOrders
    rw [hwf.mem_getAllOrders] at ho ho'
    rw [heq] at ho
    exact Option.some.inj (ho.symm.trans ho')
  book_iff b hb id p := by
    have hwf := h.booked.wf m b hb
    have hsame := h.booked.same m b hb id
    unfold inBook inRecords at hsame
    constructor
    · rintro ⟨o, ho, rfl, rfl⟩
      rw [hwf.mem_getAllOrders.mp ho] at hsame
      obtain ⟨o', ho', heq⟩ := Option.map_eq_some_iff.mp hsame.symm
      have hstake : o'.unstated.stake = o.unstated.stake := congrArg Order.stake heq
      exact ⟨o', ho', h.indexed.id_eq m _ o' ho', hstake⟩
    · rintro ⟨o, ho, rfl, rfl⟩
      rw [ho] at hsame
      obtain ⟨o', ho', heq⟩ := Option.map_eq_some_iff.mp hsame
      have hid := hwf.get_id ho'
      have hstake : o'.unstated.stake = o.unstated.stake := congrArg Order.stake heq
      exact ⟨o', hwf.mem_getAllOrders.mpr (hid ▸ ho'), hid, hstake⟩
  no_book hb id := by
    have hpaired := h.booked.paired m
    rw [hb] at hpaired
    unfold getOrder
    cases ho : s.orders[m]? with
    | none => rfl
    | some os =>
      rw [ho] at hpaired
      cases hpaired
  index_nodup a := h.indexed.nodup a m
  index_iff a id := h.indexed.mem a m id

/-! ### Records that are erased, restated and added -/

theorem getOrder_setOrders (os : FinMap OrderId Order) (id : OrderId) :
    (s.setOrders m os).getOrder k id = if m = k then os[id]? else s.getOrder k id := by
  unfold getOrder setOrders
  dsimp only
  rw [FinMap.get_insert]
  split <;> rfl

theorem orderIds_setOrderIds (b : AccountAddress) (ids : List OrderId) :
    (s.setOrderIds a m ids).orderIds b k =
      if a = b ∧ m = k then ids else s.orderIds b k := by
  unfold orderIds setOrderIds
  dsimp only
  rw [FinMap.get_insert]
  by_cases hab : a = b
  · subst hab
    simp only [if_true, true_and, Option.bind_some]
    rw [FinMap.get_insert]
    by_cases hmk : m = k
    · simp only [if_pos hmk, Option.getD_some]
    · simp only [if_neg hmk]
      cases s.accountOrders[a]? with
      | none => simp
      | some markets => rfl
  · simp only [hab, false_and, if_false]

/-- Counters and markets stay. -/
structure SameDesk (s s' : SpotEngineState) : Prop where
  nextOrderId : s'.nextOrderId = s.nextOrderId
  nextMarketId : s'.nextMarketId = s.nextMarketId
  markets : s'.markets = s.markets

/-- What a call does to the stores: the records of market `m` become `f`, its book `g`, and the
ids of account `a` in it `l`. -/
structure Updates (s : SpotEngineState) (m : SpotMarketId) (f : OrderId → Option Order)
    (g : OrderBook → OrderBook) (a : AccountAddress) (l : List OrderId) (s' : SpotEngineState) :
    Prop where
  desk : SameDesk s s'
  orders : ∀ k id, s'.getOrder k id = if m = k then f id else s.getOrder k id
  listed : ∀ k : SpotMarketId, (s'.orders[k]?).isSome = (s.orders[k]?).isSome
  books : ∀ k : SpotMarketId,
    s'.orderbooks[k]? = if m = k then (s.orderbooks[k]?).map g else s.orderbooks[k]?
  ids : ∀ b k, s'.orderIds b k = if a = b ∧ m = k then l else s.orderIds b k

variable {o order maker : Order} {b : OrderBook} {f : OrderId → Option Order} {x : Matched}
  {r : Except Error (Order × List SpotFill)}

/-- **Removing.** -/
theorem removeOrder_updates (h : s.getOrder m id = some o) :
    Updates s m (fun id' => if id = id' then none else s.getOrder m id')
      (fun b => (b.remove id).2) o.owner ((s.orderIds o.owner m).filter (· ≠ id))
      (s.removeOrder m id) := by
  obtain ⟨os, hos, ho⟩ := Option.bind_eq_some_iff.mp h
  have hrecord : ∀ id', s.getOrder m id' = os[id']? := fun id' => by
    unfold getOrder
    rw [hos]
    rfl
  obtain ⟨s₂, hs₂⟩ : ∃ s₂, s₂ = (s.setOrders m (os.erase id)).removeFromBook m id := ⟨_, rfl⟩
  have horders : s₂.orders = s.orders.insert m (os.erase id) ∧
      s₂.accountOrders = s.accountOrders ∧ SameDesk s s₂ := by
    rw [hs₂]
    unfold removeFromBook
    split <;> exact ⟨rfl, rfl, rfl, rfl, rfl⟩
  have hbooks : ∀ k : SpotMarketId, s₂.orderbooks[k]? =
      if m = k then (s.orderbooks[k]?).map (fun b => (b.remove id).2) else s.orderbooks[k]? := by
    intro k
    rw [hs₂]
    unfold removeFromBook
    split
    · rename_i hb
      by_cases hmk : m = k
      · rw [if_pos hmk, ← hmk]
        exact hb.trans (by rw [show s.orderbooks[m]? = none from hb]; rfl)
      · rw [if_neg hmk]
        rfl
    · rename_i b hb
      show (s.orderbooks.insert m (b.remove id).2)[k]? = _
      rw [FinMap.get_insert]
      by_cases hmk : m = k
      · rw [if_pos hmk, if_pos hmk, ← hmk, show s.orderbooks[m]? = some b from hb]
        rfl
      · rw [if_neg hmk, if_neg hmk]
  obtain ⟨horders, haccounts, hdesk⟩ := horders
  have heq : s.removeOrder m id = s₂.removeFromIds o.owner m id := by
    rw [removeOrder_of_some h hos, hs₂]
  have hids : s₂.orderIds = s.orderIds := by
    unfold orderIds
    rw [haccounts]
  have hget : ∀ k id', s₂.getOrder k id' =
      if m = k then (if id = id' then none else s.getOrder m id') else s.getOrder k id' := by
    intro k id'
    have hset := getOrder_setOrders (s := s) (m := m) (k := k) (os.erase id) id'
    rw [FinMap.get_erase, ← hrecord] at hset
    rw [← hset]
    unfold getOrder setOrders
    rw [horders]
  have hlisted : ∀ k : SpotMarketId, (s₂.orders[k]?).isSome = (s.orders[k]?).isSome := by
    intro k
    rw [horders]
    exact FinMap.isSome_insert hos k _
  rw [heq]
  unfold removeFromIds
  cases hi : (s₂.accountOrders[o.owner]?).bind (·[m]?) with
  | none =>
    refine ⟨hdesk, hget, hlisted, hbooks, fun b k => ?_⟩
    have hnone : s.orderIds o.owner m = [] := by
      unfold orderIds
      rw [← haccounts, hi]
      rfl
    rw [hids]
    split
    · rename_i hk
      obtain ⟨rfl, rfl⟩ := hk
      rw [hnone]
      rfl
    · rfl
  | some ids =>
    dsimp only
    refine ⟨⟨hdesk.1, hdesk.2, hdesk.3⟩, hget, hlisted, hbooks, fun b k => ?_⟩
    have hsome : s.orderIds o.owner m = ids := by
      unfold orderIds
      rw [← haccounts, hi]
      rfl
    rw [orderIds_setOrderIds, hids, hsome]

/-- **Restating.** -/
theorem updateOrderRemaining_updates (h : s.getOrder m id = some o) (r : Decimal) :
    Updates s m (fun id' => if id = id' then
        some { o with remainingSize := r, status := .partiallyFilled } else s.getOrder m id')
      (fun b => b) a (s.orderIds a m) (s.updateOrderRemaining m id r) := by
  obtain ⟨os, hos, ho⟩ := Option.bind_eq_some_iff.mp h
  have heq : s.updateOrderRemaining m id r = s.setOrders m (os.insert id
      { o with remainingSize := r, status := .partiallyFilled }) := by
    unfold updateOrderRemaining
    rw [h, hos]
  have hrecord : ∀ id', s.getOrder m id' = os[id']? := fun id' => by
    unfold getOrder
    rw [hos]
    rfl
  rw [heq]
  refine ⟨⟨rfl, rfl, rfl⟩, fun k id' => ?_, fun k => FinMap.isSome_insert hos k _, fun k => ?_,
    fun b k => ?_⟩
  · rw [getOrder_setOrders, FinMap.get_insert, hrecord]
  · show s.orderbooks[k]? = _
    split
    · rw [Option.map_id']
    · rfl
  · show s.orderIds b k = _
    split
    · rename_i hk
      obtain ⟨rfl, rfl⟩ := hk
      rfl
    · rfl

/-- **Adding.** -/
theorem addOrder_updates {os : FinMap OrderId Order} (hos : s.orders[o.marketId]? = some os)
    (hb : s.orderbooks[o.marketId]? = some b) (h : s.addOrder o = .ok s') :
    ∃ b', b.insert o = .ok b' ∧
      Updates s o.marketId
        (fun id' => if o.id = id' then some o else s.getOrder o.marketId id') (fun _ => b')
        o.owner (s.orderIds o.owner o.marketId ++ [o.id]) s' := by
  unfold addOrder at h
  rw [hos] at h
  dsimp only at h
  obtain ⟨s₁, h1, h⟩ := bind_inv h
  rw [show (s.setOrders o.marketId (os.insert o.id o)).orderbooks[o.marketId]? = some b from
    hb] at h1
  obtain ⟨b', hb', h1⟩ := bind_inv h1
  obtain rfl := pure_inv h1
  obtain rfl := pure_inv h
  have hrecord : ∀ id', s.getOrder o.marketId id' = os[id']? := fun id' => by
    unfold getOrder
    rw [hos]
    rfl
  refine ⟨b', hb', ⟨rfl, rfl, rfl⟩, fun k id' => ?_, fun k => FinMap.isSome_insert hos k _,
    fun k => ?_, fun c k => ?_⟩
  · show (s.setOrders o.marketId (os.insert o.id o)).getOrder k id' = _
    rw [getOrder_setOrders, FinMap.get_insert, hrecord]
  · show (s.orderbooks.insert o.marketId b')[k]? = _
    rw [FinMap.get_insert]
    split
    · rename_i hk
      rw [← hk, hb]
      rfl
    · rfl
  · rw [orderIds_setOrderIds]
    rfl

/-! ### What an update keeps -/

variable {g : OrderBook → OrderBook} {l : List OrderId} {fills : List SpotFill} {remaining : Order}
  {left reserve : Decimal} {x' : Matched} {config : SpotMarketConfig} {market : SpotMarket}
  {token : TokenIndex} {q : OrderRequest} {time : Timestamp} {os canceled : List Order}
  {params : SpotTokenDeployParams}

/-- The index follows the records of the market that is updated. -/
theorem Indexed.of_updates (h : s.Indexed) (hu : Updates s m f g a l s')
    (hf : ∀ id o, f id = some o → o.id = id ∧ id < s.nextOrderId) (hl : l.Nodup)
    (hmem : ∀ id, id ∈ l ↔ ∃ o, f id = some o ∧ o.owner = a)
    (hother : ∀ b id, a ≠ b → ((∃ o, f id = some o ∧ o.owner = b) ↔
      ∃ o, s.getOrder m id = some o ∧ o.owner = b)) : s'.Indexed where
  id_eq k id o ho := by
    rw [hu.orders] at ho
    split at ho
    · exact (hf id o ho).1
    · exact h.id_eq k id o ho
  below k id o ho := by
    rw [hu.desk.nextOrderId]
    rw [hu.orders] at ho
    split at ho
    · exact (hf id o ho).2
    · exact h.below k id o ho
  nodup b k := by
    rw [hu.ids]
    split
    · exact hl
    · exact h.nodup b k
  mem b k id := by
    simp only [hu.ids, hu.orders]
    by_cases hmk : m = k
    · subst hmk
      by_cases hab : a = b
      · subst hab
        simp only [and_self, if_true]
        exact hmem id
      · simp only [hab, false_and, if_false, if_true]
        rw [hother b id hab]
        exact h.mem b m id
    · simp only [hmk, and_false, if_false]
      exact h.mem b k id

/-- The books follow too, if the one of the market does. -/
theorem Booked.of_updates (h : s.Booked) (hu : Updates s m f g a l s')
    (hg : ∀ b, s.orderbooks[m]? = some b →
      (g b).WF ∧ ∀ id, inBook (g b) id = (f id).map (·.unstated)) : s'.Booked := by
  have hbook : ∀ (k : SpotMarketId) b, s'.orderbooks[k]? = some b →
      b.WF ∧ ∀ id, inBook b id = s'.inRecords k id := by
    intro k b hb
    unfold inRecords
    simp only [hu.orders]
    rw [hu.books] at hb
    split at hb
    · rename_i hmk
      subst hmk
      obtain ⟨b₀, hb₀, rfl⟩ := Option.map_eq_some_iff.mp hb
      simp only [if_true]
      exact hg b₀ hb₀
    · rename_i hmk
      simp only [hmk, if_false]
      exact ⟨h.wf k b hb, h.same k b hb⟩
  refine ⟨fun k => ?_, fun k b hb => (hbook k b hb).1, fun k b hb => (hbook k b hb).2⟩
  rw [hu.books, hu.listed, ← h.paired]
  split
  · rw [Option.isSome_map]
  · rfl

theorem removeOrder_of_none (h : s.getOrder m id = none) : s.removeOrder m id = s := by
  unfold removeOrder
  rw [h]

theorem Indexed.removeOrder (h : s.Indexed) (m : SpotMarketId) (id : OrderId) :
    (s.removeOrder m id).Indexed := by
  cases ho : s.getOrder m id with
  | none =>
    rw [removeOrder_of_none ho]
    exact h
  | some o =>
    refine h.of_updates (removeOrder_updates ho) (fun id' o' ho' => ?_)
      ((h.nodup o.owner m).filter _) (fun id' => ?_) (fun b id' hb => ?_)
    · split at ho'
      · cases ho'
      · exact ⟨h.id_eq m id' o' ho', h.below m id' o' ho'⟩
    · rw [List.mem_filter, h.mem]
      by_cases hid : id = id'
      · simp [hid]
      · simp [hid, Ne.symm hid]
    · by_cases hid : id = id'
      · subst hid
        simp [ho, hb]
      · simp [hid]

theorem Booked.removeOrder (h : s.Booked) (m : SpotMarketId) (id : OrderId) :
    (s.removeOrder m id).Booked := by
  cases ho : s.getOrder m id with
  | none =>
    rw [removeOrder_of_none ho]
    exact h
  | some o =>
    refine h.of_updates (removeOrder_updates ho) fun b hb => ?_
    obtain ⟨hwf, -, hget⟩ := (h.wf m b hb).remove id
    refine ⟨hwf, fun id' => ?_⟩
    unfold inBook
    rw [hget]
    split
    · rfl
    · exact h.same m b hb id'

/-! ### Bringing the records in line -/

/-- What rests once the filled orders are gone. -/
def erased (filled : List OrderId) (f : OrderId → Option Order)
    (id : OrderId) : Option Order :=
  if id ∈ filled then none else f id

/-- What rests once some orders were partially filled. -/
def restated (f : OrderId → Option Order) (parts : List (OrderId × Decimal)) :
    OrderId → Option Order :=
  parts.foldl (fun f part id =>
    if part.1 = id then (f id).map fun o => { o with remainingSize := part.2 } else f id) f

/-- The books stay, and the records of a market say `f` of its orders. -/
structure InLine (s : SpotEngineState) (m : SpotMarketId)
    (f : OrderId → Option Order) (s' : SpotEngineState) : Prop where
  desk : SameDesk s s'
  listed : ∀ k : SpotMarketId, (s'.orders[k]?).isSome = (s.orders[k]?).isSome
  books : ∀ k : SpotMarketId, s'.orderbooks[k]? = s.orderbooks[k]?
  inRecords : ∀ k id, s'.inRecords k id = if m = k then f id else s.inRecords k id

theorem SameDesk.refl (s : SpotEngineState) : SameDesk s s := ⟨rfl, rfl, rfl⟩

theorem SameDesk.trans (h : SameDesk s s') (h' : SameDesk s' t) : SameDesk s t :=
  ⟨h'.1.trans h.1, h'.2.trans h.2, h'.3.trans h.3⟩

theorem InLine.refl (s : SpotEngineState) (m : SpotMarketId) :
    InLine s m (s.inRecords m) s where
  desk := .refl s
  listed _ := rfl
  books _ := rfl
  inRecords k id := by
    split
    · rename_i hk
      rw [hk]
    · rfl

/-- An order that is off its book is removed from the records. -/
theorem removeOrder_inLine
    (hgone : ∀ b, s.orderbooks[m]? = some b → b.orderIndex[id]? = none) :
    InLine s m (erased [id] (s.inRecords m)) (s.removeOrder m id) := by
  cases ho : s.getOrder m id with
  | none =>
    rw [removeOrder_of_none ho]
    refine { InLine.refl s m with inRecords := fun k id' => ?_ }
    unfold erased inRecords
    split
    · rename_i hk
      subst hk
      split
      · rename_i hid
        rw [List.mem_singleton.mp hid, ho]
        rfl
      · rfl
    · rfl
  | some o =>
    have hu := removeOrder_updates ho
    refine ⟨hu.desk, hu.listed, fun k => ?_, fun k id' => ?_⟩
    · rw [hu.books]
      split
      · rename_i hk
        subst hk
        cases hb : s.orderbooks[m]? with
        | none => rfl
        | some b =>
          rw [Option.map_some]
          unfold OrderBook.remove
          rw [hgone b hb]
      · rfl
    · unfold inRecords erased
      rw [hu.orders]
      simp only [List.mem_singleton]
      by_cases hk : m = k
      · simp only [if_pos hk, eq_comm (a := id') (b := id)]
        split <;> rfl
      · simp only [if_neg hk]

theorem updateOrderRemaining_of_none (h : s.getOrder m id = none) (r : Decimal) :
    s.updateOrderRemaining m id r = s := by
  unfold updateOrderRemaining
  rw [h]

theorem updateOrderRemaining_inLine (s : SpotEngineState) (m : SpotMarketId) (id : OrderId)
    (r : Decimal) :
    InLine s m (restated (s.inRecords m) [(id, r)]) (s.updateOrderRemaining m id r) := by
  cases ho : s.getOrder m id with
  | none =>
    rw [updateOrderRemaining_of_none ho]
    refine { InLine.refl s m with inRecords := fun k id' => ?_ }
    unfold restated inRecords
    split
    · rename_i hk
      subst hk
      simp only [List.foldl_cons, List.foldl_nil]
      split
      · rename_i hid
        rw [← hid, ho]
        rfl
      · rfl
    · rfl
  | some o =>
    have hu := updateOrderRemaining_updates (a := o.owner) ho r
    refine ⟨hu.desk, hu.listed, fun k => ?_, fun k id' => ?_⟩
    · rw [hu.books]
      split
      · rw [Option.map_id']
      · rfl
    · unfold inRecords restated
      rw [hu.orders]
      simp only [List.foldl_cons, List.foldl_nil]
      by_cases hk : m = k
      · simp only [if_pos hk]
        by_cases hid : id = id'
        · subst hid
          simp only [if_true, ho]
          rfl
        · simp only [if_neg hid]
      · simp only [if_neg hk]

theorem InLine.trans {g : OrderId → Option Order} (h : InLine s m f s') (h' : InLine s' m g t) :
    InLine s m g t where
  desk := h.desk.trans h'.desk
  listed k := (h'.listed k).trans (h.listed k)
  books k := (h'.books k).trans (h.books k)
  inRecords k id := by
    rw [h'.inRecords]
    split
    · rfl
    · rename_i hk
      rw [h.inRecords, if_neg hk]

theorem InLine.inRecords_self (h : InLine s m f s') : s'.inRecords m = f := by
  funext id
  rw [h.inRecords, if_pos rfl]

theorem erased_cons (id : OrderId) (ids : List OrderId)
    (f : OrderId → Option Order) :
    erased ids (erased [id] f) = erased (id :: ids) f := by
  funext id'
  unfold erased
  simp only [List.mem_cons]
  by_cases h : id' = id
  · simp [h]
  · simp [h]

theorem removeOrders_inLine : ∀ (ids : List OrderId) {s : SpotEngineState},
    (∀ id ∈ ids, ∀ b, s.orderbooks[m]? = some b → b.orderIndex[id]? = none) →
    InLine s m (erased ids (s.inRecords m)) (ids.foldl (fun s id => s.removeOrder m id) s)
  | [], s, _ => by
    have hnil : erased [] (s.inRecords m) = s.inRecords m := by
      funext id
      simp [erased]
    rw [hnil]
    exact .refl s m
  | id :: ids, s, hgone => by
    have hfirst := removeOrder_inLine (hgone id (.head _))
    have hrest := removeOrders_inLine ids fun id' hid' b hb =>
      hgone id' (.tail _ hid') b ((hfirst.books m).symm.trans hb)
    rw [hfirst.inRecords_self, erased_cons] at hrest
    exact hfirst.trans hrest

theorem updateOrders_inLine : ∀ (parts : List (OrderId × Decimal)) (s : SpotEngineState),
    InLine s m (restated (s.inRecords m) parts)
      (parts.foldl (fun s p => s.updateOrderRemaining m p.1 p.2) s)
  | [], s => .refl s m
  | p :: parts, s => by
    have hfirst := updateOrderRemaining_inLine s m p.1 p.2
    have hrest := updateOrders_inLine parts (s.updateOrderRemaining m p.1 p.2)
    rw [hfirst.inRecords_self] at hrest
    exact hfirst.trans hrest

/-- **Sync.** The records say of every order what matching left of it. -/
theorem syncMakers_inLine
    (hgone : ∀ id ∈ x.filledMakerIds, ∀ b, s.orderbooks[m]? = some b → b.orderIndex[id]? = none) :
    InLine s m (restated (erased x.filledMakerIds (s.inRecords m)) x.partiallyFilledMakers)
      (s.syncMakers m x) := by
  have hremoved := removeOrders_inLine x.filledMakerIds hgone
  have hupdated := updateOrders_inLine (m := m) x.partiallyFilledMakers
    (x.filledMakerIds.foldl (fun s id => s.removeOrder m id) s)
  rw [hremoved.inRecords_self] at hupdated
  exact hremoved.trans hupdated

/-! ### The index -/

theorem Indexed.updateOrderRemaining (h : s.Indexed) (m : SpotMarketId) (id : OrderId)
    (r : Decimal) : (s.updateOrderRemaining m id r).Indexed := by
  cases ho : s.getOrder m id with
  | none =>
    rw [updateOrderRemaining_of_none ho]
    exact h
  | some o =>
    have hu := updateOrderRemaining_updates (a := o.owner) ho r
    have hrecord : ∀ b id', (∃ x, (if id = id' then
        some { o with remainingSize := r, status := .partiallyFilled }
        else s.getOrder m id') = some x ∧ x.owner = b) ↔
          ∃ x, s.getOrder m id' = some x ∧ x.owner = b := by
      intro b id'
      by_cases hid : id = id'
      · subst hid
        simp [ho]
      · simp [hid]
    refine h.of_updates hu (fun id' x hx => ?_) (h.nodup o.owner m) (fun id' => ?_)
      (fun b id' _ => hrecord b id')
    · split at hx
      · rename_i hid
        subst hid
        obtain rfl := Option.some.inj hx
        exact ⟨h.id_eq m id o ho, h.below m id o ho⟩
      · exact ⟨h.id_eq m id' x hx, h.below m id' x hx⟩
    · rw [hrecord, h.mem]

theorem Indexed.foldl {ι : Type} {f : SpotEngineState → ι → SpotEngineState}
    (hf : ∀ s i, s.Indexed → (f s i).Indexed) : ∀ (is : List ι) {s : SpotEngineState},
      s.Indexed → (is.foldl f s).Indexed
  | [], _, h => h
  | i :: is, _, h => Indexed.foldl hf is (hf _ i h)

theorem Indexed.syncMakers (h : s.Indexed) (m : SpotMarketId) (x : Matched) :
    (s.syncMakers m x).Indexed :=
  Indexed.foldl (fun _ (p : OrderId × Decimal) hs => hs.updateOrderRemaining m p.1 p.2) _
    (Indexed.foldl (fun _ id hs => hs.removeOrder m id) _ h)

/-! ### Matching -/

/-- The loop so far: what is left in the book is what it started with, less the makers that
were filled. A maker that is left over ends the loop. -/
structure Matching (order : Order) (b : OrderBook) (x : Matched) : Prop where
  wf : x.book.WF
  rests : ∀ id, inBook x.book id =
    restated (erased x.filledMakerIds (inBook b)) x.partiallyFilledMakers id
  ended : x.partiallyFilledMakers ≠ [] → x.remaining.isFilled = true
  gone : ∀ id ∈ x.filledMakerIds, x.book.get id = none
  taker : ∃ remainingSize status, x.remaining = { order with remainingSize, status }

theorem matching_start (hb : b.WF) :
    Matching order b ⟨order, b, [], [], []⟩ where
  wf := hb
  rests id := by simp [restated, erased]
  ended h := absurd rfl h
  gone _ h := absurd h List.not_mem_nil
  taker := ⟨order.remainingSize, order.status, rfl⟩

/-- The maker goes. -/
theorem Matching.fill (h : Matching order b x) (hopen : x.remaining.isFilled = false)
    (htaker : ∃ remainingSize status, remaining = { order with remainingSize, status }) :
    Matching order b { x with
      remaining, fills
      book := (x.book.remove maker.id).2
      filledMakerIds := x.filledMakerIds ++ [maker.id] } := by
  obtain ⟨hwf, -, hget⟩ := h.wf.remove maker.id
  have hnone : x.partiallyFilledMakers = [] := by
    by_contra hne
    rw [h.ended hne] at hopen
    cases hopen
  refine ⟨hwf, fun id => ?_, fun hne => absurd hnone hne, fun id hid => ?_, htaker⟩
  · have hrests := h.rests id
    rw [hnone] at hrests ⊢
    unfold inBook restated erased at *
    rw [hget]
    simp only [List.foldl_nil, List.mem_append, List.mem_singleton] at hrests ⊢
    by_cases hid : maker.id = id
    · simp [hid]
    · rw [if_neg hid, hrests]
      simp [Ne.symm hid]
  · rw [hget]
    rcases List.mem_append.mp hid with hid | hid
    · split
      · rfl
      · exact h.gone id hid
    · rw [if_pos (List.mem_singleton.mp hid).symm]

/-- The maker is put back with what is left of it, and the taker is filled. -/
theorem Matching.restate {book : OrderBook} (h : Matching order b x)
    (hopen : x.remaining.isFilled = false) (hmaker : x.book.get maker.id = some maker)
    (hinsert : (x.book.remove maker.id).2.insert { maker with remainingSize := left } = .ok book)
    (hfilled : remaining.isFilled = true)
    (htaker : ∃ remainingSize status, remaining = { order with remainingSize, status }) :
    Matching order b { x with
      remaining, book, fills
      partiallyFilledMakers := x.partiallyFilledMakers ++ [(maker.id, left)] } := by
  obtain ⟨hwf, -, hget⟩ := h.wf.remove maker.id
  have hnone : x.partiallyFilledMakers = [] := by
    by_contra hne
    rw [h.ended hne] at hopen
    cases hopen
  have hown : Order.OnOwnSide { maker with remainingSize := left } := (h.wf.get_spec hmaker).2.2
  obtain ⟨hwf', hget'⟩ := hwf.insert (by rw [hget, if_pos rfl]) hown hinsert
  have hstill : maker.id ∉ x.filledMakerIds := by
    intro hid
    have hgone := h.gone _ hid
    rw [hmaker] at hgone
    cases hgone
  refine ⟨hwf', fun id => ?_, fun _ => hfilled, fun id hid => ?_, htaker⟩
  · have hrests := h.rests id
    rw [hnone] at hrests ⊢
    unfold inBook restated at *
    rw [hget', hget]
    simp only [List.nil_append, List.foldl_cons, List.foldl_nil] at hrests ⊢
    by_cases hid : maker.id = id
    · subst hid
      rw [if_pos rfl, if_pos rfl, ← hrests, hmaker]
      rfl
    · rw [if_neg hid, if_neg hid, if_neg hid, hrests]
  · rw [hget', hget]
    have hne : maker.id ≠ id := by
      rintro rfl
      exact hstill hid
    rw [if_neg hne, if_neg hne]
    exact h.gone id hid

/-- A maker that is not filled fills the taker. -/
theorem filled_of_not_le {taker maker : Decimal} (h : ¬ maker ≤ taker.min maker)
    (hleft : taker.sub (taker.min maker) = .ok left) : left.isZero = true := by
  obtain ⟨-, rfl⟩ := Decimal.sub_eq_ok.mp hleft
  rw [Decimal.isZero_iff]
  unfold Decimal.min at *
  split at h
  · rename_i hle
    rw [if_pos hle]
    exact Int.sub_self _
  · exact absurd (Decimal.le_def.mpr (.inr ⟨rfl, Nat.le_refl _⟩)) h

theorem Matching.step (h : Matching order b x) (hopen : x.remaining.isFilled = false)
    (hmaker : x.book.get maker.id = some maker) (hret : matchOne m config x maker = .ok x') :
    Matching order b x' := by
  obtain ⟨quoteSize, -, hret⟩ := bind_inv hret
  obtain ⟨makerFee, -, hret⟩ := bind_inv hret
  obtain ⟨takerFee, -, hret⟩ := bind_inv hret
  obtain ⟨left, hleft, hret⟩ := bind_inv hret
  obtain ⟨size, status, htaker⟩ := h.taker
  have htaker' : ∀ (r : Decimal) (st : OrderStatus), ∃ remainingSize status,
      ({ x.remaining with remainingSize := r, status := st } : Order) =
        { order with remainingSize, status } := fun r st => ⟨r, st, by rw [htaker]⟩
  dsimp only at hret
  split at hret
  · obtain rfl := pure_inv hret
    exact h.fill hopen (htaker' _ _)
  · rename_i hle
    obtain ⟨makerLeft, -, hret⟩ := bind_inv hret
    split at hret
    · obtain rfl := pure_inv hret
      exact h.fill hopen (htaker' _ _)
    · obtain ⟨book, hbook, hret⟩ := bind_inv hret
      obtain rfl := pure_inv hret
      exact h.restate hopen hmaker hbook (filled_of_not_le hle hleft) (htaker' _ _)

/-- **Loop.** -/
theorem Matching.loop {fuel : Nat} (h : Matching order b x)
    (hret : matchOrder m config fuel x = .ok x') :
    Matching order b x' :=
  matchOrder_rule (fun h hopen hbest hone => h.step hopen (h.wf.best_spec hbest).1 hone) h hret

/-! ### Books through a call -/

theorem Booked.of_maps (h : s.Booked) (hmaps : s'.maps = s.maps) : s'.Booked := by
  obtain ⟨horders, hbooks⟩ := OrderMaps.mk.inj hmaps
  have hrecords : s'.inRecords = s.inRecords := by
    funext k id
    unfold inRecords getOrder
    rw [horders]
  exact ⟨fun k => by rw [horders, hbooks, h.paired],
    fun k b hb => h.wf k b (hbooks ▸ hb),
    fun k b hb id => by rw [hrecords, h.same k b (hbooks ▸ hb)]⟩

theorem get_setOrderbook (b : OrderBook) (k : SpotMarketId) :
    (s.setOrderbook m b).orderbooks[k]? = if m = k then some b else s.orderbooks[k]? :=
  FinMap.get_insert ..

/-- What bringing the records in line does after matching. -/
theorem Matching.inLine (hx : Matching o b x) (s : SpotEngineState) (m : SpotMarketId) :
    InLine (s.setOrderbook m x.book) m
      (restated (erased x.filledMakerIds (s.inRecords m)) x.partiallyFilledMakers)
      ((s.setOrderbook m x.book).syncMakers m x) := by
  refine syncMakers_inLine fun id hid b' hb' => ?_
  rw [get_setOrderbook, if_pos rfl] at hb'
  obtain rfl := Option.some.inj hb'
  exact hx.wf.get_eq_none.mp (hx.gone id hid)

theorem restated_none : ∀ {parts : List (OrderId × Decimal)} {id : OrderId}
    {f : OrderId → Option Order}, f id = none → restated f parts id = none
  | [], _, _, h => h
  | p :: parts, id, f, h => by
    refine @restated_none parts id _ ?_
    dsimp only
    split
    · rw [h]
      rfl
    · exact h

/-- Nothing is recorded that was not. -/
theorem Matching.unrecorded (hx : Matching o b x) (hfresh : ∀ k, s.getOrder k id = none)
    (k : SpotMarketId) :
    ((s.setOrderbook m x.book).syncMakers m x).getOrder k id = none := by
  have hnone : ∀ k', s.inRecords k' id = none := fun k' => by
    unfold inRecords
    rw [hfresh]
    rfl
  have hrecorded := (hx.inLine s m).inRecords k id
  have hzero : restated (erased x.filledMakerIds (s.inRecords m)) x.partiallyFilledMakers id =
      none := by
    refine restated_none ?_
    unfold erased
    split
    · rfl
    · exact hnone m
  have hline : ((s.setOrderbook m x.book).syncMakers m x).inRecords k id = none := by
    rw [hrecorded]
    split
    · exact hzero
    · exact hnone k
  exact Option.map_eq_none_iff.mp hline

/-- Matching and bringing the records in line. -/
theorem Booked.matched (h : s.Booked) (hb : s.orderbooks[m]? = some b) (hx : Matching o b x) :
    ((s.setOrderbook m x.book).syncMakers m x).Booked := by
  have hline := hx.inLine s m
  have hstart : inBook b = s.inRecords m := funext fun id => h.same m b hb id
  refine ⟨fun k => ?_, fun k b' hb' => ?_, fun k b' hb' id => ?_⟩
  · rw [hline.books, hline.listed, get_setOrderbook]
    show _ = (s.orders[k]?).isSome
    rw [← h.paired]
    split
    · rename_i hk
      rw [← hk, hb]
      rfl
    · rfl
  · rw [hline.books, get_setOrderbook] at hb'
    split at hb'
    · obtain rfl := Option.some.inj hb'
      exact hx.wf
    · exact h.wf k b' hb'
  · rw [hline.inRecords]
    rw [hline.books, get_setOrderbook] at hb'
    split at hb'
    · rename_i hk
      obtain rfl := Option.some.inj hb'
      rw [if_pos hk, hx.rests, hstart]
    · rename_i hk
      rw [if_neg hk]
      exact h.same k b' hb' id

/-- A new order on its own side. In a market that does not exist it is put nowhere. -/
theorem Booked.addOrder (h : s.Booked) (hfresh : s.getOrder o.marketId o.id = none)
    (hown : o.OnOwnSide) (hret : s.addOrder o = .ok s') : s'.Booked := by
  cases hos : s.orders[o.marketId]? with
  | none =>
    have hnone := h.paired o.marketId
    rw [hos] at hnone
    have hbook : s.orderbooks[o.marketId]? = none :=
      Option.isNone_iff_eq_none.mp (Option.isSome_eq_false_iff.mp hnone)
    have hmaps := (maps_addOrder hret).1
    unfold OrderMaps.addOrder OrderMaps.putRecord at hmaps
    rw [show s.maps.orders[o.marketId]? = none from hos] at hmaps
    dsimp only at hmaps
    unfold OrderMaps.insertInBook at hmaps
    rw [show s.maps.orderbooks[o.marketId]? = none from hbook] at hmaps
    exact h.of_maps (pure_inv hmaps).symm
  | some os =>
    obtain ⟨b, hb⟩ := Option.isSome_iff_exists.mp
      ((h.paired o.marketId).trans (Option.isSome_of_eq_some hos))
    obtain ⟨b', hb', hu⟩ := addOrder_updates hos hb hret
    have hget : b.get o.id = none := by
      have hsame := h.same o.marketId b hb o.id
      unfold inRecords at hsame
      rw [hfresh] at hsame
      exact Option.map_eq_none_iff.mp hsame
    refine h.of_updates hu fun b₀ hb₀ => ?_
    obtain rfl := Option.some.inj (hb.symm.trans hb₀)
    obtain ⟨hwf, hget'⟩ := (h.wf _ b hb).insert hget hown hb'
    refine ⟨hwf, fun id' => ?_⟩
    unfold inBook
    rw [hget']
    split
    · rfl
    · exact h.same _ b hb id'

/-- Whatever fails after matching, books and records agree. -/
theorem Booked.executeOrder (h : s.Booked) (hfresh : ∀ k, s.getOrder k o.id = none)
    (hown : o.shouldRest = true → o.OnOwnSide)
    (hret : s.executeOrder m market o token reserve = .ok (r, s')) : s'.Booked := by
  rcases executeOrder_cases hret with ⟨rfl, -⟩ | ⟨b, x, paid, s₁, hexec, hend⟩
  · exact h
  have hx := (matching_start (h.wf m b hexec.book_eq)).loop hexec.loop
  have hmaps := hexec.trades.maps
  have hs₁ := (h.matched hexec.book_eq hx).of_maps hmaps
  rcases hend with ⟨rfl, -⟩ | ⟨-, -, hsettle⟩
  · exact hs₁
  rcases settleRemaining_cases hsettle with ⟨-, hrest, hadd⟩ | ⟨-, honly⟩
  · obtain ⟨size, status, htaker⟩ := hx.taker
    rw [htaker] at hrest hadd
    refine hs₁.addOrder (o := { o with remainingSize := size, status := status }) ?_
      (hown hrest) hadd
    show s₁.maps.getOrder o.marketId o.id = none
    rw [hmaps]
    exact hx.unrecorded hfresh o.marketId
  · exact hs₁.of_maps honly.trades.maps

theorem Booked.placeOrder (h : s.Booked) (hfresh : ∀ k, s.getOrder k s.nextOrderId = none)
    (hown : (Order.new s.nextOrderId a q time).shouldRest = true →
      (Order.new s.nextOrderId a q time).OnOwnSide) (hret : s.placeOrder a m q time = .ok (r, s')) :
    s'.Booked := by
  rcases placeOrder_cases hret with ⟨rfl, -⟩ | ⟨s₁, market, token, reserve, -, -, -, h1, hexec⟩
  · exact h
  · have hmaps : ({ s₁ with nextOrderId := s.nextOrderId + 1 } : SpotEngineState).maps = s.maps :=
      (reserveBalance_only h1).trades.maps
    refine (h.of_maps hmaps).executeOrder (fun k => ?_) hown hexec
    show ({ s₁ with nextOrderId := s.nextOrderId + 1 } : SpotEngineState).maps.getOrder k
      s.nextOrderId = none
    rw [hmaps]
    exact hfresh k

/-- A new market has an empty book and no records. -/
theorem Booked.openMarket (h : s.Booked) (m : SpotMarketId) : Booked { s with
    orderbooks := s.orderbooks.insert m .new
    orders := s.orders.insert m ∅ } := by
  refine ⟨fun k => ?_, fun k b hb => ?_, fun k b hb id => ?_⟩
  · show ((s.orderbooks.insert m _)[k]?).isSome = ((s.orders.insert m _)[k]?).isSome
    rw [FinMap.get_insert, FinMap.get_insert]
    split
    · rfl
    · exact h.paired k
  · change (s.orderbooks.insert m _)[k]? = some b at hb
    rw [FinMap.get_insert] at hb
    split at hb
    · obtain rfl := Option.some.inj hb
      exact OrderBook.new_wf
    · exact h.wf k b hb
  · change (s.orderbooks.insert m _)[k]? = some b at hb
    rw [FinMap.get_insert] at hb
    show inBook b id = ((s.setOrders m ∅).getOrder k id).map _
    rw [getOrder_setOrders, FinMap.get_empty]
    split at hb
    · rename_i hk
      obtain rfl := Option.some.inj hb
      rw [if_pos hk]
      simp [inBook, OrderBook.get, OrderBook.new]
    · rename_i hk
      rw [if_neg hk]
      exact h.same k b hb id

theorem Booked.cancelOrder {r : Except Error Order} (h : s.Booked)
    (hret : s.cancelOrder a m id = .ok (r, s')) : s'.Booked := by
  rcases cancelOrder_cases hret with ⟨rfl, -⟩ | ⟨o, s₁, -, -, -, honly, rfl⟩
  · exact h
  · exact (h.of_maps honly.trades.maps).removeOrder m id

theorem Booked.cancelOrders (h : s.Booked)
    (hret : SpotEngineState.cancelOrders a m os s = .ok (canceled, s')) : s'.Booked :=
  cancelOrders_rule (fun h hone => h.cancelOrder hone) h hret

theorem Booked.deployToken {r : Except Error SpotToken} (h : s.Booked)
    (hret : s.deployToken params a = .ok (r, s')) : s'.Booked := by
  rcases deployToken_cases hret with
    ⟨rfl, -⟩ | ⟨token, next, s₁, nextMarketId, config, -, -, -, hcredited, -, -, rfl⟩
  · exact h
  · have hmaps : s₁.maps = s.maps := hcredited.trades.maps
    have hopened := (h.of_maps hmaps).openMarket s₁.nextMarketId
    exact ⟨hopened.paired, hopened.wf, hopened.same⟩

/-! ### Calls -/

theorem Coherent.trades (h : s.Coherent) (ht : TradesOnly s s') : s'.Coherent := by
  have hbooked := h.booked.of_maps ht.maps
  obtain ⟨u, r, ms, rfl, hm⟩ := ht
  exact {
    indexed := ⟨h.indexed.id_eq, h.indexed.below, h.indexed.nodup, h.indexed.mem⟩
    booked := hbooked
    listed := fun m => (h.listed m).trans (hm m).symm
    bounded := fun m hs => h.bounded m ((hm m).symm.trans hs) }

/-- After the counters and markets of `s`, with everything else in line. -/
theorem Coherent.of_desk (h : s.Coherent) (hd : SameDesk s s') (hi : s'.Indexed)
    (hb : s'.Booked)
    (hbooks : ∀ k : SpotMarketId, (s'.orderbooks[k]?).isSome = (s.orderbooks[k]?).isSome) :
    s'.Coherent where
  indexed := hi
  booked := hb
  listed k := by rw [hbooks, hd.markets, h.listed]
  bounded k hk := by
    rw [hd.nextMarketId]
    rw [hd.markets] at hk
    exact h.bounded k hk

theorem Coherent.removeOrder (h : s.Coherent) (m : SpotMarketId) (id : OrderId) :
    (s.removeOrder m id).Coherent := by
  cases ho : s.getOrder m id with
  | none =>
    rw [removeOrder_of_none ho]
    exact h
  | some o =>
    have hu := removeOrder_updates ho
    refine h.of_desk hu.desk (h.indexed.removeOrder m id) (h.booked.removeOrder m id) fun k => ?_
    rw [hu.books]
    split
    · rw [Option.isSome_map]
    · rfl

/-- A new order rests in a market that exists. -/
theorem Coherent.addOrder (h : s.Coherent) (hfresh : s.getOrder o.marketId o.id = none)
    (hid : o.id < s.nextOrderId) (hown : o.OnOwnSide)
    (hmarket : (s.markets[o.marketId]?).isSome = true) (hret : s.addOrder o = .ok s') :
    s'.Coherent := by
  have hbook := (h.listed o.marketId).trans hmarket
  obtain ⟨b, hb⟩ := Option.isSome_iff_exists.mp hbook
  obtain ⟨os, hos⟩ := Option.isSome_iff_exists.mp ((h.booked.paired o.marketId).symm.trans hbook)
  obtain ⟨b', -, hu⟩ := addOrder_updates hos hb hret
  have hnew : o.id ∉ s.orderIds o.owner o.marketId := by
    intro hmem
    obtain ⟨o', ho', -⟩ := (h.indexed.mem _ _ _).mp hmem
    rw [hfresh] at ho'
    cases ho'
  refine h.of_desk hu.desk (h.indexed.of_updates hu (fun id' o' ho' => ?_) ?_ (fun id' => ?_)
    (fun c id' hc => ?_)) (h.booked.addOrder hfresh hown hret) fun k => ?_
  · split at ho'
    · rename_i heq
      obtain rfl := Option.some.inj ho'
      exact ⟨heq, heq ▸ hid⟩
    · exact ⟨h.indexed.id_eq _ _ _ ho', h.indexed.below _ _ _ ho'⟩
  · exact List.nodup_append.mpr ⟨h.indexed.nodup _ _, List.nodup_singleton _, fun x hx y hy => by
      rw [List.mem_singleton.mp hy]
      rintro rfl
      exact hnew hx⟩
  · rw [List.mem_append, List.mem_singleton, h.indexed.mem]
    by_cases heq : o.id = id'
    · subst heq
      simp [hfresh]
    · simp [heq, Ne.symm heq]
  · by_cases heq : o.id = id'
    · subst heq
      simp [hfresh, hc]
    · simp [heq]
  · rw [hu.books]
    split
    · rw [Option.isSome_map]
    · rfl

theorem Coherent.matched (h : s.Coherent) (hb : s.orderbooks[m]? = some b) (hx : Matching o b x) :
    ((s.setOrderbook m x.book).syncMakers m x).Coherent ∧
      SameDesk s ((s.setOrderbook m x.book).syncMakers m x) := by
  have hindexed : (s.setOrderbook m x.book).Indexed :=
    ⟨h.indexed.id_eq, h.indexed.below, h.indexed.nodup, h.indexed.mem⟩
  have hline := hx.inLine s m
  have hdesk : SameDesk s ((s.setOrderbook m x.book).syncMakers m x) :=
    ⟨hline.desk.1, hline.desk.2, hline.desk.3⟩
  refine ⟨h.of_desk hdesk (hindexed.syncMakers m x) (h.booked.matched hb hx) fun k => ?_, hdesk⟩
  rw [hline.books, get_setOrderbook]
  split
  · rename_i hk
    rw [← hk, hb]
    rfl
  · rfl

/-- Whatever fails after matching, the stores agree. -/
theorem Coherent.executeOrder (h : s.Coherent) (hfresh : ∀ k, s.getOrder k o.id = none)
    (hid : o.id < s.nextOrderId) (hown : o.OnOwnSide)
    (hmarket : (s.markets[o.marketId]?).isSome = true)
    (hret : s.executeOrder m market o token reserve = .ok (r, s')) : s'.Coherent := by
  rcases executeOrder_cases hret with ⟨rfl, -⟩ | ⟨b, x, paid, s₁, hexec, hend⟩
  · exact h
  have hx := (matching_start (h.booked.wf m b hexec.book_eq)).loop hexec.loop
  obtain ⟨hsynced, hdesk⟩ := h.matched hexec.book_eq hx
  have htrades := hexec.trades
  have hs₁ := hsynced.trades htrades
  rcases hend with ⟨rfl, -⟩ | ⟨-, -, hsettle⟩
  · exact hs₁
  rcases settleRemaining_cases hsettle with ⟨-, -, hadd⟩ | ⟨-, honly⟩
  · obtain ⟨size, status, htaker⟩ := hx.taker
    rw [htaker] at hadd
    obtain ⟨_, _, _, rfl, hmarkets⟩ := htrades
    refine hs₁.addOrder (o := { o with remainingSize := size, status := status })
      (hx.unrecorded hfresh o.marketId) ?_ hown ?_ hadd
    · show o.id < (syncMakers _ m x).nextOrderId
      rw [hdesk.nextOrderId]
      exact hid
    · rw [hmarkets, hdesk.markets]
      exact hmarket
  · exact hs₁.trades honly.trades

/-- Before a placement its id is on no order, after it no id is skipped. -/
theorem Coherent.unused (h : s.Coherent) (k : SpotMarketId) :
    s.getOrder k s.nextOrderId = none := by
  by_contra hne
  obtain ⟨o, ho⟩ := Option.ne_none_iff_exists'.mp hne
  exact absurd (h.indexed.below k _ o ho) (Nat.lt_irrefl _)

theorem Coherent.takeId (h : s.Coherent) :
    Coherent { s with nextOrderId := s.nextOrderId + 1 } where
  indexed := ⟨h.indexed.id_eq, fun k id o ho => Nat.lt_succ_of_lt (h.indexed.below k id o ho),
    h.indexed.nodup, h.indexed.mem⟩
  booked := ⟨h.booked.paired, h.booked.wf, h.booked.same⟩
  listed := h.listed
  bounded := h.bounded

/-- **Placing.** With a positive price and in a market that exists, whether it succeeds or not. -/
theorem Coherent.placeOrder (h : s.Coherent) (hprice : 0 < q.price.value)
    (hmarket : (s.markets[q.marketId]?).isSome = true)
    (hret : s.placeOrder a m q time = .ok (r, s')) : s'.Coherent := by
  rcases placeOrder_cases hret with ⟨rfl, -⟩ | ⟨s₁, market, token, reserve, -, -, -, h1, hexec⟩
  · exact h
  have hreserved := h.trades (reserveBalance_only h1).trades
  obtain ⟨u, reserved, rfl⟩ := reserveBalance_only h1
  refine hreserved.takeId.executeOrder (o := .new s.nextOrderId a q time) (fun k => h.unused k)
    (Nat.lt_succ_self _) ?_ hmarket hexec
  unfold Order.OnOwnSide Order.new
  cases q.side with
  | buy => exact hprice
  | sell => exact hprice.le

theorem Coherent.cancelOrder {r : Except Error Order} (h : s.Coherent)
    (hret : s.cancelOrder a m id = .ok (r, s')) : s'.Coherent := by
  rcases cancelOrder_cases hret with ⟨rfl, -⟩ | ⟨o, s₁, -, -, -, honly, rfl⟩
  · exact h
  · exact (h.trades honly.trades).removeOrder m id

theorem Coherent.cancelOrders (h : s.Coherent) (hret : cancelOrders a m os s = .ok (canceled, s')) :
    s'.Coherent :=
  cancelOrders_rule (fun h hone => h.cancelOrder hone) h hret

/-! ### Deployments -/

theorem coherent_withUnifiedState (u : UnifiedState) : Coherent (.withUnifiedState u) := by
  have hget : ∀ k id, (withUnifiedState u).getOrder k id = none := fun k id => by
    simp [withUnifiedState, getOrder]
  have hids : ∀ a k, (withUnifiedState u).orderIds a k = [] := fun a k => by
    simp [withUnifiedState, orderIds]
  have hbook : ∀ k : SpotMarketId, (withUnifiedState u).orderbooks[k]? = none := fun k => by
    simp [withUnifiedState]
  refine ⟨⟨fun k id o ho => ?_, fun k id o ho => ?_, fun a k => ?_, fun a k id => ?_⟩,
    ⟨fun k => rfl, fun k b hb => ?_, fun k b hb => ?_⟩, fun k => rfl, fun k hk => ?_⟩
  · rw [hget] at ho
    cases ho
  · rw [hget] at ho
    cases ho
  · rw [hids]
    exact List.nodup_nil
  · rw [hids, hget]
    simp
  · rw [hbook] at hb
    cases hb
  · rw [hbook] at hb
    cases hb
  · have hnone : (withUnifiedState u).markets[k]? = none := by simp [withUnifiedState]
    rw [hnone] at hk
    cases hk

/-- A new market is above every other, so nothing is in its stores. -/
theorem Coherent.openMarket (h : s.Coherent) (market : SpotMarket) {next : SpotMarketId}
    (hnext : next.toNat = s.nextMarketId.toNat + 1) : Coherent { s with
      markets := s.markets.insert s.nextMarketId market
      orderbooks := s.orderbooks.insert s.nextMarketId .new
      orders := s.orders.insert s.nextMarketId ∅
      nextMarketId := next } := by
  have hfree : s.markets[s.nextMarketId]? = none := by
    by_contra hne
    exact absurd (h.bounded _ (Option.isSome_iff_ne_none.mpr hne)) (UInt8.lt_irrefl _)
  have hnone : ∀ id, s.getOrder s.nextMarketId id = none := fun id => by
    have hlisted := h.listed s.nextMarketId
    rw [hfree, h.booked.paired] at hlisted
    unfold getOrder
    rw [Option.isNone_iff_eq_none.mp (Option.isSome_eq_false_iff.mp hlisted)]
    rfl
  have hget : ∀ k id, (s.setOrders s.nextMarketId ∅).getOrder k id = s.getOrder k id := by
    intro k id
    rw [getOrder_setOrders, FinMap.get_empty]
    split
    · rename_i hk
      rw [← hk, hnone]
    · rfl
  have hindexed : (s.setOrders s.nextMarketId ∅).Indexed := by
    refine ⟨fun k id o ho => ?_, fun k id o ho => ?_, h.indexed.nodup, fun b k id => ?_⟩
    · rw [hget] at ho
      exact h.indexed.id_eq k id o ho
    · rw [hget] at ho
      exact h.indexed.below k id o ho
    · rw [hget]
      exact h.indexed.mem b k id
  have hbooked := h.booked.openMarket s.nextMarketId
  refine ⟨⟨hindexed.id_eq, hindexed.below, hindexed.nodup, hindexed.mem⟩,
    ⟨hbooked.paired, hbooked.wf, hbooked.same⟩, fun k => ?_, fun k hk => ?_⟩
  · show ((s.orderbooks.insert _ _)[k]?).isSome = ((s.markets.insert _ _)[k]?).isSome
    rw [FinMap.get_insert, FinMap.get_insert]
    split
    · rfl
    · exact h.listed k
  · change ((s.markets.insert _ _)[k]?).isSome = true at hk
    rw [FinMap.get_insert] at hk
    show k < next
    rw [UInt8.lt_iff_toNat_lt, hnext]
    split at hk
    · rename_i heq
      rw [← heq]
      exact Nat.lt_succ_self _
    · exact Nat.lt_succ_of_lt (UInt8.lt_iff_toNat_lt.mp (h.bounded k hk))

/-- Nothing here depends on the tokens. -/
theorem Coherent.withTokens (h : s.Coherent) (tokens : FinMap TokenIndex SpotToken)
    (nextTokenIndex : TokenIndex) : Coherent { s with tokens, nextTokenIndex } where
  indexed := ⟨h.indexed.id_eq, h.indexed.below, h.indexed.nodup, h.indexed.mem⟩
  booked := ⟨h.booked.paired, h.booked.wf, h.booked.same⟩
  listed := h.listed
  bounded := h.bounded

theorem Coherent.deployToken {r : Except Error SpotToken} (h : s.Coherent)
    (hret : s.deployToken params a = .ok (r, s')) : s'.Coherent := by
  rcases deployToken_cases hret with
    ⟨rfl, -⟩ | ⟨token, next, s₁, nextMarketId, config, -, -, -, hcredited, hmarket, -, rfl⟩
  · exact h
  have hs₁ : s₁.Coherent := (h.withTokens s.tokens next).trades hcredited.trades
  have hnext : nextMarketId.toNat = s₁.nextMarketId.toNat + 1 := by
    unfold u8 at hmarket
    split at hmarket
    · rename_i hlt
      rw [← Except.ok.inj hmarket, UInt8.toNat_ofNat', Nat.mod_eq_of_lt hlt]
    · cases hmarket
  exact (hs₁.openMarket (.new config) hnext).withTokens _ _

end SpotEngineState

/-! ### Runs -/

/-- A call of the spot engine, or something that moves balances around it. -/
inductive SpotCall
  | deployToken (params : SpotTokenDeployParams) (deployer : AccountAddress)
  /-- Others write to the balance sheet, which is shared. -/
  | share (sheet : UnifiedState)
  | placeOrder (account : AccountAddress) (market : SpotMarketId) (request : OrderRequest)
    (timestamp : Timestamp)
  | cancelOrder (account : AccountAddress) (market : SpotMarketId) (orderId : OrderId)
  | cancelAllOrders (account : AccountAddress) (market : SpotMarketId)

namespace SpotCall

/-- The engine a call leaves, whether it succeeds or not. -/
def step (call : SpotCall) (s : SpotEngineState) : Exec SpotEngineState :=
  match call with
  | deployToken params deployer => do return (← s.deployToken params deployer).2
  | share sheet => return { s with unifiedState := sheet }
  | placeOrder account market request timestamp => do
    return (← s.placeOrder account market request timestamp).2
  | cancelOrder account market orderId => do return (← s.cancelOrder account market orderId).2
  | cancelAllOrders account market => do return (← s.cancelAllOrders account market).2

/-- Orders have positive prices. -/
def Priced : SpotCall → Prop
  | placeOrder _ _ request _ => 0 < request.price.value
  | _ => True

/-- Orders name a market that exists as the one they are for. -/
def NamesMarket (s : SpotEngineState) : SpotCall → Prop
  | placeOrder _ _ request _ => (s.markets[request.marketId]?).isSome = true
  | _ => True

instance : DecidablePred Priced
  | placeOrder _ _ request _ => inferInstanceAs (Decidable (0 < request.price.value))
  | deployToken .. | share .. | cancelOrder .. | cancelAllOrders .. => isTrue trivial

instance (s : SpotEngineState) : DecidablePred (NamesMarket s)
  | placeOrder _ _ request _ =>
    inferInstanceAs (Decidable ((s.markets[request.marketId]?).isSome = true))
  | deployToken .. | share .. | cancelOrder .. | cancelAllOrders .. => isTrue trivial

/-- **Step.** -/
theorem step_coherent {call : SpotCall} {s s' : SpotEngineState} (h : s.Coherent)
    (hpriced : call.Priced) (hnames : call.NamesMarket s) (hstep : call.step s = .ok s') :
    s'.Coherent := by
  cases call with
  | deployToken params deployer =>
    obtain ⟨⟨r, s₁⟩, hcall, hstep⟩ := bind_inv hstep
    obtain rfl := pure_inv hstep
    exact h.deployToken hcall
  | share sheet =>
    obtain rfl := pure_inv hstep
    exact h.trades ⟨sheet, s.reserved, s.markets, rfl, fun _ => rfl⟩
  | placeOrder account market request timestamp =>
    obtain ⟨⟨r, s₁⟩, hcall, hstep⟩ := bind_inv hstep
    obtain rfl := pure_inv hstep
    exact h.placeOrder hpriced hnames hcall
  | cancelOrder account market orderId =>
    obtain ⟨⟨r, s₁⟩, hcall, hstep⟩ := bind_inv hstep
    obtain rfl := pure_inv hstep
    exact h.cancelOrder hcall
  | cancelAllOrders account market =>
    obtain ⟨⟨r, s₁⟩, hcall, hstep⟩ := bind_inv hstep
    obtain rfl := pure_inv hstep
    exact h.cancelOrders hcall

/-- **Run.** After any run of calls whose orders have positive prices and name a market that
exists, the three stores of every market agree. `Coherent` is the invariant: a match works on the
book alone, and map and index are restated from what rests before anything can fail. -/
theorem stores_agree {u : UnifiedState} {s : SpotEngineState}
    (h : Run.Reaches step (fun s call => call.Priced ∧ call.NamesMarket s)
      (.withUnifiedState u) s) (m : SpotMarketId) : s.StoresAgree m := by
  have hcoherent := h.invariant (P := SpotEngineState.Coherent)
    (SpotEngineState.coherent_withUnifiedState u)
    fun _ _ _ hs hok hstep => step_coherent hs hok.1 hok.2 hstep
  exact hcoherent.storesAgree m

/-- A hundred of one token, all of it with account seven. -/
def tokenOfSeven : SpotTokenDeployParams := ⟨"TEST", 8, 2, ⟨10000000000, 8⟩, []⟩

/-- A limit order of a size at a price of one. -/
def atOne (marketId : MarketId) (side : OrderSide) (size : Int) : OrderRequest where
  marketId
  side
  price := ⟨100000000, 8⟩
  size := ⟨size, 8⟩
  orderType := .limit .gtc
  reduceOnly := false
  clientOrderId := none
  triggerPrice := none
  triggerDirection := none

/-- Two sells of which one is cancelled, and a buy that fills a part of the other. -/
def fillRun : List SpotCall :=
  [deployToken tokenOfSeven 7, placeOrder 7 128 (atOne 128 .sell 300000000) 1,
    placeOrder 7 128 (atOne 128 .sell 400000000) 2, cancelOrder 7 128 1000001,
    placeOrder 8 128 (atOne 128 .buy 100000000) 3]

theorem stores_agree_afterFill : ∃ s,
    Run.Reaches step (fun s call => call.Priced ∧ call.NamesMarket s)
      (.withUnifiedState (UnifiedState.new.setBalance 8 0 (.new ⟨50000000, 6⟩))) s ∧
    (s.getOrder 128 1000000).map (·.remainingSize) = some ⟨200000000, 8⟩ ∧ s.StoresAgree 128 := by
  obtain ⟨s, hs, hleft⟩ := Exec.exists_of_test
    (x := fillRun.foldlM
      (fun (s : SpotEngineState) (call : SpotCall) =>
        if call.Priced ∧ call.NamesMarket s then call.step s else .error .panic)
      (.withUnifiedState (UnifiedState.new.setBalance 8 0 (.new ⟨50000000, 6⟩))))
    (p := fun s => (s.getOrder 128 1000000).map (·.remainingSize) = some ⟨200000000, 8⟩)
    (by decide +kernel)
  have hreach := Run.Reaches.of_checked (fun s call => inferInstance) hs
  exact ⟨s, hreach, of_decide_eq_true hleft, stores_agree hreach 128⟩

/-- An order that is placed in market 128 and names market 5. -/
def misnamedRun : List SpotCall :=
  [deployToken tokenOfSeven 7, placeOrder 7 128 (atOne 5 .sell 300000000) 1]

/-- It is in the index alone. -/
theorem misnamed_order_only_in_index : ∃ s,
    Run.Reaches step (fun _ call => call.Priced) (.withUnifiedState .new) s ∧
    ¬ s.StoresAgree 5 := by
  obtain ⟨s, hs, hindex⟩ := Exec.exists_of_test
    (x := misnamedRun.foldlM
      (fun (s : SpotEngineState) (call : SpotCall) =>
        if call.Priced then call.step s else .error .panic) (.withUnifiedState .new))
    (p := fun s => 1000000 ∈ s.orderIds 7 5 ∧ (s.getOrder 5 1000000).isNone) (by decide +kernel)
  obtain ⟨hlisted, hnone⟩ := of_decide_eq_true hindex
  refine ⟨s, Run.Reaches.of_checked (fun s call => inferInstance) hs, fun h => ?_⟩
  obtain ⟨o, ho, -⟩ := (h.index_iff 7 1000000).mp hlisted
  rw [ho] at hnone
  cases hnone

end SpotCall

end Hypercore
