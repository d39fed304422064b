import Hypercore.Engine.Frames
/-!
# Hypercore.Engine.Rejection

What a rejected order leaves behind.

**Two stages.** An order can be turned away by the checks, when at most its account
has been opened and its balance copied from the shared sheet (`openAccount`); or by
the matching engine, after matching has written the book and before anything else
has been written (`executeOrder_error`). Trigger checks come after success and
cannot reject. `Rejected` puts the two together.
-/

namespace Hypercore

open Exec Int128

namespace Engine

open EngineState

variable {e e' : Engine} {a b : AccountAddress} {m k : MarketId}

/-! ### Opening an account -/

/-- The account that `place_order` checks: the one on record, or an empty one, with the
balance of the shared sheet when there is one. -/
def openedAccount (e : Engine) (a : AccountAddress) : AccountState :=
  match e.unifiedState with
  | none => (e.state.getAccount a).getD .default
  | some u => ⟨(u.getCoreView a 0).value⟩

theorem getAccount_syncAccount : (e.syncAccount a).state.getAccount b =
    if a = b then some (e.openedAccount a) else e.state.getAccount b := by
  have hc := getAccount_getOrCreateAccount (s := e.state) (a := a) (b := b)
  have hself : (e.state.getOrCreateAccount a).accounts[a]? =
      some ((e.state.getAccount a).getD .default) := by
    have h := getAccount_getOrCreateAccount (s := e.state) (a := a) (b := a)
    rw [if_pos rfl] at h
    exact h
  unfold syncAccount openedAccount
  cases e.unifiedState with
  | none => exact hc
  | some u =>
    simp only [hself]
    show ((e.state.getOrCreateAccount a).accounts.insert a _)[b]? = _
    rw [FinMap.get_insert]
    split
    · rfl
    · rename_i h
      rw [if_neg h] at hc
      exact hc

theorem getAccount_openAccount : (e.openAccount a m).state.getAccount b =
    if a = b then some (e.openedAccount a) else e.state.getAccount b := by
  rw [← getAccount_syncAccount]
  obtain ⟨positions, h⟩ :=
    getOrCreatePosition_only (s := (e.syncAccount a).state) (a := a) (m := m)
  show ((e.syncAccount a).state.getOrCreatePosition a m).getAccount b = _
  rw [h]
  rfl

/-! ### Rejection -/

/-- The errors of the matching engine. -/
def ByMatching (err : Error) : Prop := err = .postOnlyWouldCross ∨ err = .fokNotFilled

/-- What a rejected order of account `a` in market `m` leaves of the engine. -/
structure Rejected (e : Engine) (a : AccountAddress) (m : MarketId) (err : Error)
    (e' : Engine) : Prop where
  /-- Orders map, account index, markets, fills, trigger orders and shared balances are
  among what is not named here, and are as before. -/
  frame : ∃ accounts positions orderbooks nextOrderId, e' =
    { e with state := { e.state with accounts, positions, orderbooks, nextOrderId } }
  accounts : ∀ b, e'.state.getAccount b = e.state.getAccount b ∨
    (b = a ∧ e'.state.getAccount b = some (e.openedAccount a))
  positions : ∀ b k, e'.state.getPosition b k = e.state.getPosition b k ∨
    (e.state.getPosition b k = none ∧ e'.state.getPosition b k = some .new)
  nextOrderId : e'.state.nextOrderId = e.state.nextOrderId ∨
    e'.state.nextOrderId = e.state.nextOrderId + 1
  otherBooks : ∀ k, k ≠ m → e'.state.orderbooks[k]? = e.state.orderbooks[k]?
  books : ¬ ByMatching err → e'.state.orderbooks = e.state.orderbooks

theorem executeOrder_error {market : Market} {order : Order} {err : Error}
    (h : e.executeOrder market order = .ok (.error err, e')) :
    e' = e ∨ (ByMatching err ∧ ∃ book,
      e' = { e with state := e.state.setOrderbook order.marketId book }) := by
  rcases executeOrder_cases h with ⟨rfl, -⟩ | ⟨book, book', r, -, hproc, hend⟩
  · exact .inl rfl
  rcases hend with ⟨err', rfl, herr, rfl⟩ | ⟨updated, fills, fills', -, hr, -⟩
  · obtain rfl := Except.error.inj herr
    obtain ⟨order₁, book₁, fills₁, r₁, -, hun, hr⟩ := MatchingEngine.processOrder_cases hproc
    refine .inr ⟨?_, _, rfl⟩
    rcases MatchingEngine.handleUnfilled_cases hun with ⟨-, rfl, -⟩ |
      ⟨-, -, -, ⟨-, rfl⟩ | ⟨-, rfl⟩⟩ | ⟨-, -, rfl, -⟩ | ⟨-, -, rfl, -⟩
    · cases hr
    · exact .inl (Except.error.inj hr)
    · exact .inr (Except.error.inj hr)
    · cases hr
    · cases hr
  · cases hr

/-- The engine after the checks, its book and order-id counter possibly written. -/
theorem rejected_of_opened {err : Error} (orderbooks : FinMap MarketId OrderBook) (n : OrderId)
    (he' : e' = { e.openAccount a m with
      state := { (e.openAccount a m).state with orderbooks, nextOrderId := n } })
    (hn : n = e.state.nextOrderId ∨ n = e.state.nextOrderId + 1)
    (hother : ∀ k, k ≠ m → orderbooks[k]? = e.state.orderbooks[k]?)
    (hbooks : ¬ ByMatching err → orderbooks = e.state.orderbooks) : Rejected e a m err e' := by
  obtain ⟨accounts, positions, hopen⟩ := openAccount_only e a m
  have hacc : ∀ b, e'.state.getAccount b = (e.openAccount a m).state.getAccount b := by
    rw [he']
    exact fun _ => rfl
  have hpos : ∀ b k, e'.state.getPosition b k = (e.openAccount a m).state.getPosition b k := by
    rw [he']
    exact fun _ _ => rfl
  refine ⟨⟨accounts, positions, orderbooks, n, by rw [he', hopen]⟩, fun b => ?_, fun b k => ?_,
    ?_, ?_, ?_⟩
  · rw [hacc, getAccount_openAccount]
    split
    · rename_i h
      exact .inr ⟨h.symm, rfl⟩
    · exact .inl rfl
  · rw [hpos, getPosition_openAccount]
    split
    · rename_i h
      obtain ⟨rfl, rfl⟩ := h
      cases e.state.getPosition a m with
      | none => exact .inr ⟨rfl, rfl⟩
      | some p => exact .inl rfl
    · exact .inl rfl
  · rw [he']
    exact hn
  · rw [he']
    exact hother
  · rw [he']
    exact hbooks

theorem submitOrder_error {q : OrderRequest} {t : Timestamp} {err : Error}
    (h : e.submitOrder a q t = .ok (.error err, e')) : Rejected e a q.marketId err e' := by
  have hsame : (e.openAccount a q.marketId).state.orderbooks = e.state.orderbooks ∧
      (e.openAccount a q.marketId).state.nextOrderId = e.state.nextOrderId := by
    obtain ⟨_, _, hopen⟩ := openAccount_only e a q.marketId
    rw [hopen]
    exact ⟨rfl, rfl⟩
  rcases submitOrder_cases h with ⟨rfl | rfl, -⟩ | ⟨market, -, -, -, -, ⟨-, hr, -⟩ | ⟨-, hexec⟩⟩
  · -- turned away before the account was looked at
    exact ⟨⟨_, _, _, _, rfl⟩, fun _ => .inl rfl, fun _ _ => .inl rfl, .inl rfl, fun _ _ => rfl,
      fun _ => rfl⟩
  · -- turned away by the checks on the account
    exact rejected_of_opened _ _ rfl (.inl hsame.2) (fun k _ => congrArg (·[k]?) hsame.1)
      (fun _ => hsame.1)
  · cases hr
  · rcases executeOrder_error hexec with rfl | ⟨hby, book, rfl⟩
    · exact rejected_of_opened _ _ rfl (.inr rfl) (fun k _ => congrArg (·[k]?) hsame.1)
        (fun _ => hsame.1)
    · refine rejected_of_opened _ _ rfl (.inr rfl) (fun k hk => ?_) (fun hnot => absurd hby hnot)
      exact (FinMap.get_insert_ne _ _ (Ne.symm hk)).trans (congrArg (·[k]?) hsame.1)

/-- **Rejection.** A rejected order leaves everything as it was, up to the order-id
counter, empty default entries, the copy of the caller's shared balance and, when the
matching engine rejected it, the book of its market. -/
theorem placeOrder_error {q : OrderRequest} {t : Timestamp} {err : Error}
    (h : e.placeOrder a q t = .ok (.error err, e')) : Rejected e a q.marketId err e' := by
  obtain ⟨⟨r₁, e₁⟩, hsub, h⟩ := bind_inv h
  cases r₁ with
  | error err' =>
    obtain ⟨herr, rfl⟩ := pair_inv h
    obtain rfl := Except.error.inj herr
    exact submitOrder_error hsub
  | ok of =>
    obtain ⟨order, fills⟩ := of
    have habsurd : ∀ {e₂ : Engine},
        ((.ok (order, fills) : Except Error (Order × List Fill)), e₂) ≠ (.error err, e') := by
      intro e₂ heq
      exact absurd (Prod.mk.inj heq).1 (by simp)
    simp only at h
    split at h
    · exact absurd (pure_inv h) habsurd
    · split at h
      · exact absurd (pure_inv h) habsurd
      · obtain ⟨x, -, h⟩ := bind_inv h
        exact absurd (pure_inv h) habsurd

/-- A fill-or-kill order that is only partly filled is rejected with the resting order
already gone from the book. -/
theorem fok_takes_maker : ∃ e e', Reachable e ∧
    e.placeOrder 2 (limitOrder .buy .fok 6500000000000 20000000) 6 =
      .ok (.error .fokNotFilled, e') ∧
    ((e.state.orderbooks[(0 : MarketId)]?).map (·.getAllOrders.length)) = some 1 ∧
    ((e'.state.orderbooks[(0 : MarketId)]?).map (·.getAllOrders.length)) = some 0 := by
  obtain ⟨e, he, htest⟩ := exists_of_test (x := btcRun none [.deposit 1 100000000000,
      .deposit 2 100000000000, .placeOrder 1 (limitOrder .sell .gtc 6500000000000 10000000) 5])
    (p := fun e =>
      ((e.state.orderbooks[(0 : MarketId)]?).map (·.getAllOrders.length)) = some 1 &&
      rejects (e.placeOrder 2 (limitOrder .buy .fok 6500000000000 20000000) 6) fun err e' =>
        err = .fokNotFilled ∧
          ((e'.state.orderbooks[(0 : MarketId)]?).map (·.getAllOrders.length)) = some 0)
    (by decide +kernel)
  rw [Bool.and_eq_true, decide_eq_true_eq] at htest
  obtain ⟨h1, h2⟩ := htest
  obtain ⟨err, e', h, hpass⟩ := of_rejects h2
  obtain ⟨rfl, hbook⟩ := of_decide_eq_true hpass
  exact ⟨e, e', btcRun_reachable he, h, h1, hbook⟩

/-- Such an order, over a book with one order. -/
theorem placeOrder_error_fok : ∃ e e', Reachable e ∧
    e.placeOrder 2 (limitOrder .buy .fok 6500000000000 20000000) 6 =
      .ok (.error .fokNotFilled, e') ∧
    ((e.state.orderbooks[(0 : MarketId)]?).map (·.getAllOrders.length)) = some 1 ∧
    Rejected e 2 0 .fokNotFilled e' := by
  obtain ⟨e, e', hreach, h, hrests, -⟩ := fok_takes_maker
  exact ⟨e, e', hreach, h, hrests, placeOrder_error h⟩

/-- Two ways a rejection shows. A fill-or-kill order that is only partly filled is
rejected with the resting order already gone from the book; and a rejection for want of
margin leaves the balance copied from the shared sheet. -/
theorem placeOrder_error_visible :
    (∃ e e', Reachable e ∧
      e.placeOrder 2 (limitOrder .buy .fok 6500000000000 20000000) 6 =
        .ok (.error .fokNotFilled, e') ∧
      ((e.state.orderbooks[(0 : MarketId)]?).map (·.getAllOrders.length)) = some 1 ∧
      ((e'.state.orderbooks[(0 : MarketId)]?).map (·.getAllOrders.length)) = some 0) ∧
    ∃ e e' err, Reachable e ∧
      e.placeOrder 1 (limitOrder .buy .gtc 6500000000000 10000000) 6 = .ok (.error err, e') ∧
      e.state.getBalance 1 = ⟨1000000000, 6⟩ ∧ e'.state.getBalance 1 = ⟨500000, 6⟩ := by
  refine ⟨fok_takes_maker, ?_⟩
  let sheet (raw : Int) : UnifiedState :=
    UnifiedState.new.setBalance 1 0 (.new ⟨raw, 6⟩)
  obtain ⟨e, he, htest⟩ := exists_of_test (x := btcRun (some (sheet 1000000000))
      [.placeOrder 1 (limitOrder .buy .gtc 6500000000000 1000000) 5, .setUnified (sheet 500000)])
    (p := fun e => e.state.getBalance 1 = ⟨1000000000, 6⟩ &&
      rejects (e.placeOrder 1 (limitOrder .buy .gtc 6500000000000 10000000) 6) fun _ e' =>
        e'.state.getBalance 1 = ⟨500000, 6⟩) (by decide +kernel)
  rw [Bool.and_eq_true, decide_eq_true_eq] at htest
  obtain ⟨h1, h2⟩ := htest
  obtain ⟨err, e', h, hpass⟩ := of_rejects h2
  exact ⟨e, e', err, btcRun_reachable he, h, h1, of_decide_eq_true hpass⟩

end Engine

end Hypercore
