import Hypercore.Chain.Nonce
import Hypercore.Gateway.Handlers
/-!
# Hypercore.Gateway.Replay

Replay protection over the requests that a gateway handles.

A request that goes through the application spends its nonce when it succeeds, and
changes nothing when it fails, if its orders can be read. A request that goes to the
spot engine spends nothing: it is executed as often as it is sent.
-/

namespace Hypercore

open Exec Int128

/-- What a request can act on: the balance sheet, the perp engine and the spot engine. -/
def AppState.exposure (s : AppState) :
    UnifiedState × Option EngineState × Option SpotEngineState :=
  (s.unifiedState, s.perp.map (·.state), s.spot)

namespace Gateway

open AppState

/-- Operations of a node in single-node mode: requests, and the blocks in between. -/
inductive GatewayOp
  | request (request : ExchangeRequest) (now : Timestamp)
  | beginBlock (height : BlockHeight) (timestamp : Timestamp)
  | endBlock (ord : HashOrder)

/-- A request that was handled, with the states around it. -/
structure Handling where
  request : ExchangeRequest
  before : AppState
  after : AppState

/-- The request changed a balance, an order, a position or a setting. -/
def Handling.TakesEffect (h : Handling) : Prop := h.after.exposure ≠ h.before.exposure

/-- One operation, with a record of the requests handled so far, newest first. -/
def recordRequest : GatewayOp → AppState × List Handling → Exec (AppState × List Handling)
  | .request r now, x => do
    let (_, s) ← processExchangeRequest x.1 r now
    return (s, ⟨r, x.1, s⟩ :: x.2)
  | .beginBlock h t, x => return (x.1.beginBlock h t, x.2)
  | .endBlock ord, x => do return (← finishBlock ord x.1, x.2)

/-- No request of a history took effect twice. -/
def AtMostOnce (log : List Handling) : Prop :=
  log.Pairwise fun x y => x.request = y.request → ¬ (x.TakesEffect ∧ y.TakesEffect)

/-- Every order of the action can be read. -/
def Readable : TransactionType → Prop
  | .order orders => ∀ w ∈ orders, w.toOrderRequest.isOk = true
  | _ => True

/-- A spot action or view transfer comes for the first time; another action uses its nonce in
sequence, and its orders can be read. -/
def Guarded (x : AppState × List Handling) : GatewayOp → Prop
  | .request r now =>
    if ofSpotEngine r.action then r ∉ x.2.map (·.request)
    else match transactionType r.action with
      | .error _ => True
      | .ok action => InSequence x.1 (.tx ⟨action, r.nonce, r.txSigner⟩ now) ∧ Readable action
  | _ => True

instance : (action : TransactionType) → Decidable (Readable action)
  | .order orders => inferInstanceAs (Decidable (∀ w ∈ orders, w.toOrderRequest.isOk = true))
  | .cancel _ | .cancelByCloid _ | .cancelAll | .updateLeverage .. | .usdTransfer ..
  | .withdraw .. | .evmAction .. | .spotOrder _ | .spotCancelAll _ | .viewTransfer ..
  | .setMarginMode _ | .cancelTrigger .. => .isTrue trivial

instance (x : AppState × List Handling) : (op : GatewayOp) → Decidable (Guarded x op)
  | .request r now =>
    have : Decidable (match transactionType r.action with
        | .error _ => True
        | .ok action => InSequence x.1 (.tx ⟨action, r.nonce, r.txSigner⟩ now) ∧
          Readable action) := by
      cases transactionType r.action <;> dsimp only <;> infer_instance
    inferInstanceAs (Decidable (if ofSpotEngine r.action then r ∉ x.2.map (·.request)
      else match transactionType r.action with
        | .error _ => True
        | .ok action => InSequence x.1 (.tx ⟨action, r.nonce, r.txSigner⟩ now) ∧
          Readable action))
  | .beginBlock .. => .isTrue trivial
  | .endBlock _ => .isTrue trivial

/-! ### Failed transactions -/

section Failed

variable {s s' : AppState} {a : AccountAddress} {t : Timestamp}

/-- Putting a perp engine back that a call left as it was. -/
theorem exposure_setPerp {e : Engine} (h : s.perp = some e) :
    (s.setPerp e).exposure = s.exposure := by
  obtain ⟨p, hp, rfl⟩ := Option.map_eq_some_iff.mp h
  have hu : (({ p with unifiedState := p.unifiedState.map fun _ => s.unifiedState } : Engine)
      |>.unifiedState.getD s.unifiedState) = s.unifiedState := by
    cases p.unifiedState <;> rfl
  unfold exposure setPerp perp spot
  dsimp only at hu ⊢
  rw [hu, hp]
  rfl

/-- A batch of readable orders does not fail. -/
theorem runOrders_ok {wires : List OrderWire} {b : OrderBatch}
    {r : Except AppError (List Event)} (hread : ∀ w ∈ wires, w.toOrderRequest.isOk = true)
    (h : runOrders a t wires b = .ok (r, s')) : ∃ events, r = .ok events := by
  induction wires generalizing b with
  | nil =>
    obtain ⟨rfl, -⟩ := pair_inv h
    exact ⟨_, rfl⟩
  | cons wire wires ih =>
    obtain ⟨rb, hb, h⟩ := bind_inv h
    have hwire := hread wire (.head _)
    unfold batchOrder at hb
    cases hq : wire.toOrderRequest with
    | error e =>
      rw [hq] at hwire
      cases hwire
    | ok request =>
      rw [hq] at hb
      obtain ⟨b', -, hb⟩ := bind_inv hb
      obtain rfl := pure_inv hb
      exact ih (fun w hw => hread w (.tail _ hw)) h

variable {e : AppError}

theorem updateLeverage_error {asset : MarketId} {leverage : UInt8}
    (h : s.executeUpdateLeverage a asset leverage = .ok (.error e, s')) :
    s'.exposure = s.exposure := by
  unfold executeUpdateLeverage at h
  cases hp : s.perp with
  | none =>
    rw [hp] at h
    obtain ⟨hr, -⟩ := pair_inv h
    cases hr
  | some engine =>
    rw [hp] at h
    obtain ⟨⟨r, engine'⟩, h1, h⟩ := bind_inv h
    cases r with
    | ok u =>
      obtain ⟨hr, -⟩ := pair_inv h
      cases hr
    | error err =>
      obtain ⟨-, rfl⟩ := pair_inv h
      have hsame : engine' = engine := by
        unfold Engine.updateLeverage at h1
        dsimp only at h1
        split at h1
        · exact (pair_inv h1).2.symm
        · split at h1
          · exact (pair_inv h1).2.symm
          · split at h1
            · cases (pair_inv h1).1
            · split at h1
              · cases (pair_inv h1).1
              · split at h1
                · exact (pair_inv h1).2.symm
                · obtain ⟨c, -, h1⟩ := bind_inv h1
                  cases c with
                  | error _ => exact (pair_inv h1).2.symm
                  | ok _ => cases (pair_inv h1).1
      rw [hsame]
      exact exposure_setPerp hp

/-- A transfer that is not carried out leaves the balance sheet alone. -/
theorem transferCore_done {u u' : UnifiedState} {b : AccountAddress} {token : TokenIndex}
    {amount : Decimal} {done : Bool} (h : u.transferCore a b token amount = .ok (done, u')) :
    done = true ∨ u' = u := by
  unfold UnifiedState.transferCore at h
  by_cases hlt : ((u.getBalance a token).map (·.coreView)).getD Decimal.default < amount
  · rw [if_pos hlt] at h
    exact .inr (pair_inv h).2.symm
  · rw [if_neg hlt] at h
    obtain ⟨u₁, -, h⟩ := bind_inv h
    obtain ⟨u₂, -, h⟩ := bind_inv h
    exact .inl (pair_inv h).1.symm

theorem usdTransfer_error {destination : AccountAddress} {amount : String}
    (h : s.executeUsdTransfer a destination amount = .ok (.error e, s')) : s' = s := by
  unfold executeUsdTransfer at h
  split at h
  · exact (pair_inv h).2.symm
  · split at h
    · exact (pair_inv h).2.symm
    · obtain ⟨⟨done, u⟩, h1, h⟩ := bind_inv h
      dsimp only at h
      split at h
      · obtain ⟨hr, -⟩ := pair_inv h
        cases hr
      · rename_i hdone
        obtain ⟨-, rfl⟩ := pair_inv h
        obtain hd | rfl := transferCore_done h1
        · exact absurd hd hdone
        · rfl

theorem withdraw_error {destination : AccountAddress} {amount : String}
    (h : s.executeWithdraw a destination amount = .ok (.error e, s')) : s' = s := by
  unfold executeWithdraw at h
  split at h
  · exact (pair_inv h).2.symm
  · obtain ⟨⟨done, u⟩, h1, h⟩ := bind_inv h
    dsimp only at h
    split at h
    · obtain ⟨hr, -⟩ := pair_inv h
      cases hr
    · rename_i hdone
      obtain ⟨-, rfl⟩ := pair_inv h
      rcases UnifiedState.debitCore_cases h1 with ⟨-, rfl, -⟩ | ⟨rfl, -⟩
      · rfl
      · exact absurd rfl hdone

/-- An action of the gateway that fails has done nothing, if its orders can be read. -/
theorem executeAction_error {request : ExchangeAction} {action : TransactionType}
    (ht : transactionType request = .ok action) (hread : Readable action)
    (h : s.executeAction a t action = .ok (.error e, s')) : s'.exposure = s.exposure := by
  cases request with
  | order orders =>
    obtain rfl := Except.ok.inj ht
    obtain ⟨events, hr⟩ := runOrders_ok hread h
    cases hr
  | cancel cancels =>
    obtain rfl := Except.ok.inj ht
    obtain ⟨b, -, h⟩ := bind_inv h
    cases (pair_inv h).1
  | cancelByCloid cancels =>
    obtain rfl := Except.ok.inj ht
    obtain ⟨b, -, h⟩ := bind_inv h
    cases (pair_inv h).1
  | cancelAll =>
    obtain rfl := Except.ok.inj ht
    obtain ⟨b, -, h⟩ := bind_inv h
    cases (pair_inv h).1
  | updateLeverage asset leverage =>
    obtain rfl := Except.ok.inj ht
    exact updateLeverage_error h
  | usdTransfer destination amount =>
    cases hd : parseAddress destination with
    | error err => simp [transactionType, hd] at ht
    | ok dest =>
      simp only [transactionType, hd] at ht
      obtain rfl := Except.ok.inj ht
      rw [usdTransfer_error h]
  | withdraw destination amount =>
    cases hd : parseAddress destination with
    | error err => simp [transactionType, hd] at ht
    | ok dest =>
      simp only [transactionType, hd] at ht
      obtain rfl := Except.ok.inj ht
      rw [withdraw_error h]
  | spotOrder | spotCancel | spotCancelAll | viewTransfer => cases ht

/-- A transaction of the gateway changes nothing, or spends a fresh nonce. -/
theorem executePerp_spends {request : ExchangeRequest}
    {r : Except HandlerError ExchangeResponse}
    (hok : ∀ action, transactionType request.action = .ok action →
      InSequence s (.tx ⟨action, request.nonce, request.txSigner⟩ t) ∧ Readable action)
    (h : executePerpActionViaApp s request t = .ok (r, s')) :
    (∀ b n, Spent s b n → Spent s' b n) ∧
      (s'.exposure = s.exposure ∨
        ∃ a, request.txSigner = some a ∧ ¬ Spent s a request.nonce ∧
          Spent s' a request.nonce) := by
  unfold executePerpActionViaApp at h
  cases ht : transactionType request.action with
  | error e =>
    rw [ht] at h
    obtain ⟨-, rfl⟩ := pair_inv h
    exact ⟨fun _ _ hsp => hsp, .inl rfl⟩
  | ok action =>
    rw [ht] at h
    obtain ⟨hseq, hread⟩ := hok action ht
    obtain ⟨⟨rtx, s₁⟩, htx, h⟩ := bind_inv h
    cases rtx with
    | ok result =>
      obtain ⟨-, rfl⟩ := pair_inv h
      obtain ⟨a, ha, hfresh, hnow, hgrow⟩ := executeTx_spends hseq htx
      exact ⟨hgrow, .inr ⟨a, ha, hfresh, hnow⟩⟩
    | error e =>
      obtain ⟨-, rfl⟩ := pair_inv h
      refine ⟨fun b n hsp => hsp.of_same (executeTx_failed_nonces htx), .inl ?_⟩
      obtain ⟨rfl, -⟩ | ⟨a, ra, s₂, -, -, hact, ⟨e, rfl, -, rfl⟩ | ⟨events, s₃, -, he, -⟩⟩ :=
        executeTx_cases htx
      · rfl
      · exact executeAction_error ht hread hact
      · cases he

end Failed

/-! ### Histories -/

/-- What a history that meets the guard keeps: an effect through the application has spent
its nonce, and no request took effect twice. -/
structure LogOk (x : AppState × List Handling) : Prop where
  spent : ∀ h ∈ x.2, ofSpotEngine h.request.action = false → h.TakesEffect →
    ∃ a, h.request.txSigner = some a ∧ Spent x.1 a h.request.nonce
  once : AtMostOnce x.2

variable {log : List Handling}

/-- A handled request joins the history. -/
theorem LogOk.cons {s s' : AppState} {h : Handling} (hlog : LogOk (s, log))
    (hgrow : ∀ b n, Spent s b n → Spent s' b n)
    (hspent : ofSpotEngine h.request.action = false → h.TakesEffect →
      ∃ a, h.request.txSigner = some a ∧ Spent s' a h.request.nonce)
    (hnew : ∀ y ∈ log, h.request = y.request → ¬ (h.TakesEffect ∧ y.TakesEffect)) :
    LogOk (s', h :: log) where
  spent y hy hperp heff := by
    rcases List.mem_cons.mp hy with rfl | hy
    · exact hspent hperp heff
    · obtain ⟨a, ha, hsp⟩ := hlog.spent y hy hperp heff
      exact ⟨a, ha, hgrow a _ hsp⟩
  once := List.pairwise_cons.mpr ⟨hnew, hlog.once⟩

/-- A change of state that leaves the nonces alone, between requests. -/
theorem LogOk.same {s s' : AppState} (hlog : LogOk (s, log))
    (h : s'.nonces = s.nonces ∧ s'.lastTimestampNonces = s.lastTimestampNonces) :
    LogOk (s', log) where
  spent y hy hperp heff := by
    obtain ⟨a, ha, hsp⟩ := hlog.spent y hy hperp heff
    exact ⟨a, ha, hsp.of_same h⟩
  once := hlog.once

/-- **Step lemma.** An operation that meets the guard keeps the history in order. -/
theorem LogOk.step {x x' : AppState × List Handling} {op : GatewayOp} (hx : LogOk x)
    (hok : Guarded x op) (hs : recordRequest op x = .ok x') : LogOk x' := by
  obtain ⟨s, log⟩ := x
  cases op with
  | beginBlock height timestamp =>
    cases pure_inv hs
    exact hx.same ⟨rfl, rfl⟩
  | endBlock ord =>
    obtain ⟨s', hs', hs⟩ := bind_inv hs
    cases pure_inv hs
    exact hx.same (finishBlock_nonces hs')
  | request request now =>
    obtain ⟨⟨r, s'⟩, hr, hs⟩ := bind_inv hs
    cases pure_inv hs
    unfold processExchangeRequest at hr
    cases hsender : request.sender with
    | none =>
      -- the signature failed: nothing happens
      rw [hsender] at hr
      obtain ⟨-, rfl⟩ := pair_inv hr
      have hnone : ¬ (⟨request, s, s⟩ : Handling).TakesEffect := fun h => h rfl
      exact hx.cons (fun _ _ h => h) (fun _ h => absurd h hnone) fun _ _ _ h => hnone h.1
    | some sender =>
      rw [hsender] at hr
      dsimp only at hr
      unfold processExchangeRequestPresigned at hr
      unfold Guarded at hok
      dsimp only at hok
      cases hspot : ofSpotEngine request.action with
      | true =>
        rw [if_pos hspot] at hok
        rw [hspot, if_pos rfl] at hr
        have hsame : s'.nonces = s.nonces ∧ s'.lastTimestampNonces = s.lastTimestampNonces := by
          cases hengine : s.spot with
          | none => rw [hengine] at hr; cases hr
          | some engine =>
            rw [hengine] at hr
            obtain ⟨⟨r', engine'⟩, -, hr⟩ := bind_inv hr
            obtain ⟨-, rfl⟩ := pair_inv hr
            exact ⟨rfl, rfl⟩
        refine hx.cons (fun _ _ h => h.of_same hsame) (fun h => ?_) fun y hy heq => ?_
        · rw [hspot] at h
          cases h
        · exact absurd (List.mem_map.mpr ⟨y, hy, heq.symm⟩) hok
      | false =>
        rw [if_neg (by rw [hspot]; decide)] at hok
        rw [hspot, if_neg (by decide)] at hr
        have hguard : ∀ action, transactionType request.action = .ok action →
            InSequence s (.tx ⟨action, request.nonce, request.txSigner⟩ now) ∧
              Readable action := by
          intro action haction
          rw [haction] at hok
          exact hok
        obtain ⟨hgrow, hsame | ⟨a, ha, hfresh, hnow⟩⟩ := executePerp_spends hguard hr
        · have hnone : ¬ (⟨request, s, s'⟩ : Handling).TakesEffect := fun h => h hsame
          exact hx.cons hgrow (fun _ h => absurd h hnone) fun _ _ _ h => hnone h.1
        · refine hx.cons hgrow (fun _ _ => ⟨a, ha, hnow⟩) fun y hy heq heff => ?_
          -- an earlier effect of the same request would have spent the nonce
          obtain ⟨b, hb, hsp⟩ := hx.spent y hy (heq ▸ hspot) heff.2
          have heq : request = y.request := heq
          rw [← heq] at hb hsp
          rw [ha] at hb
          cases hb
          exact hfresh hsp

/-- **Guarded requests take effect once.** In every run of requests and blocks, from any
state, in which every spot action and view transfer comes for the first time and every
other action uses its nonce in sequence with orders that can be read, no request takes
effect twice. -/
theorem guarded_requests_once {s₀ s : AppState} {log : List Handling}
    (h : Run.Reaches recordRequest Guarded (s₀, []) (s, log)) : AtMostOnce log :=
  (h.invariant (P := LogOk) ⟨by simp, .nil⟩ fun _ _ _ => LogOk.step).once

/-- A move of 100 USDC of account 1 to its EVM view. -/
def toEvmRequest : ExchangeRequest :=
  ⟨.viewTransfer 0 "100" true, 1700000000000, some 1, some 1⟩

/-- A transfer of 100 USDC from account 1 to account 2. -/
def transferRequest : ExchangeRequest :=
  ⟨.usdTransfer "0x0000000000000000000000000000000000000002" "100", 1700000000000, some 1,
    some 1⟩

/-- Requests to a node where account 1 has 1000 USDC. -/
def requestRun (ops : List GatewayOp) (ok : AppState × List Handling → GatewayOp → Prop)
    [∀ x op, Decidable (ok x op)] : Exec (AppState × List Handling) := do
  let s₀ ← genesis (usdcGenesis [(1, 1000000000)])
  ops.foldlM (fun x op => if ok x op then recordRequest op x else .error .panic) (s₀, [])

theorem requestRun_reaches {ops : List GatewayOp}
    {ok : AppState × List Handling → GatewayOp → Prop} [inst : ∀ x op, Decidable (ok x op)]
    {x : AppState × List Handling} (h : requestRun ops ok = .ok x) :
    ∃ s₀, genesis (usdcGenesis [(1, 1000000000)]) = .ok s₀ ∧
      Run.Reaches recordRequest ok (s₀, []) x := by
  obtain ⟨s₀, h0, h⟩ := bind_inv h
  exact ⟨s₀, h0, .of_checked inst h⟩

/-- A view transfer, and a transfer that is sent twice. -/
theorem guarded_requests_once_three : ∃ s₀ s log,
    Run.Reaches recordRequest Guarded (s₀, []) (s, log) ∧
      log.map (·.request) = [transferRequest, transferRequest, toEvmRequest] ∧
      s.unifiedState.getCoreView 2 0 = ⟨100000000, 6⟩ ∧ AtMostOnce log := by
  obtain ⟨⟨s, log⟩, h, hlog⟩ := exists_of_test
    (x := requestRun [.request toEvmRequest 1700000000000,
      .request transferRequest 1700000000000, .request transferRequest 1700000000000] Guarded)
    (p := fun x => x.2.map (·.request) = [transferRequest, transferRequest, toEvmRequest] ∧
      x.1.unifiedState.getCoreView 2 0 = ⟨100000000, 6⟩)
    (by decide +kernel)
  obtain ⟨s₀, -, hr⟩ := requestRun_reaches h
  obtain ⟨hreq, hview⟩ := of_decide_eq_true hlog
  exact ⟨s₀, s, log, hr, hreq, hview, guarded_requests_once hr⟩

/-- The EVM view of account 1 around a request. -/
def evmViews (h : Handling) : ExchangeRequest × Decimal × Decimal :=
  (h.request, h.before.unifiedState.getEvmView 1 0, h.after.unifiedState.getEvmView 1 0)

/-- A request that changed the view each time took effect each time. -/
theorem replayed_of_views {r : ExchangeRequest} {u v w : Decimal}
    (h : log.map evmViews = [(r, v, w), (r, u, v)]) (huv : u ≠ v) (hvw : v ≠ w) :
    log.map (·.request) = [r, r] ∧ (∀ h ∈ log, h.TakesEffect) ∧ ¬ AtMostOnce log := by
  have heffect : ∀ z : Handling, z.before.unifiedState.getEvmView 1 0 ≠
      z.after.unifiedState.getEvmView 1 0 → z.TakesEffect := by
    intro z hz heq
    exact hz (by rw [show z.after.unifiedState = z.before.unifiedState from congrArg (·.1) heq])
  obtain ⟨y, rest, rfl, hyv, h⟩ := List.map_eq_cons_iff.mp h
  obtain ⟨x, rest, rfl, hxv, h⟩ := List.map_eq_cons_iff.mp h
  obtain rfl := List.map_eq_nil_iff.mp h
  simp only [evmViews, Prod.mk.injEq] at hyv hxv
  obtain ⟨hy, hy₁, hy₂⟩ := hyv
  obtain ⟨hx, hx₁, hx₂⟩ := hxv
  have hyeff : y.TakesEffect := heffect y (by rw [hy₁, hy₂]; exact hvw)
  have hxeff : x.TakesEffect := heffect x (by rw [hx₁, hx₂]; exact huv)
  refine ⟨by rw [List.map_cons, List.map_cons, hy, hx]; rfl, ?_, fun honce => ?_⟩
  · intro z hz
    simp only [List.mem_cons, List.not_mem_nil, or_false] at hz
    obtain rfl | rfl := hz
    · exact hyeff
    · exact hxeff
  · exact (List.pairwise_cons.mp honce).1 x (.head _) (hy.trans hx.symm) ⟨hyeff, hxeff⟩

/-- The same view transfer, sent twice, moves the amount twice. -/
theorem view_transfer_replayed : ∃ s₀ s log,
    genesis (usdcGenesis [(1, 1000000000)]) = .ok s₀ ∧
      Run.Reaches recordRequest (fun _ _ => True) (s₀, []) (s, log) ∧
      log.map (·.request) = [toEvmRequest, toEvmRequest] ∧
      (∀ h ∈ log, h.TakesEffect) ∧ ¬ AtMostOnce log ∧
      s.unifiedState.getEvmView 1 0 = ⟨200000000, 6⟩ := by
  obtain ⟨⟨s, log⟩, h, hlog⟩ := exists_of_test
    (x := requestRun [.request toEvmRequest 1700000000000,
      .request toEvmRequest 1700000000001] fun _ _ => True)
    (p := fun x => x.2.map evmViews =
        [(toEvmRequest, ⟨100000000, 6⟩, ⟨200000000, 6⟩),
          (toEvmRequest, ⟨0, 6⟩, ⟨100000000, 6⟩)] ∧
      x.1.unifiedState.getEvmView 1 0 = ⟨200000000, 6⟩)
    (by decide +kernel)
  obtain ⟨s₀, h0, hr⟩ := requestRun_reaches h
  obtain ⟨hviews, hview⟩ := of_decide_eq_true hlog
  obtain ⟨hreq, heff, hnot⟩ := replayed_of_views hviews (by decide) (by decide)
  exact ⟨s₀, s, log, h0, hr, hreq, heff, hnot, hview⟩

end Gateway

end Hypercore
