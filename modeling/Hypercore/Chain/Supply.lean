import Hypercore.Chain.Engines
import Hypercore.Chain.SignedEffect
import Hypercore.Engine.Supply
import Hypercore.Spot.Supply
/-!
# Hypercore.Chain.Supply

The supply of a token over the runs of a node.

Tokens come into being at genesis. Of what a node does later, perp trading, funding and
liquidation move USDC alone, transfers between the views of an account keep every supply, and
withdrawals burn USDC. A spot order keeps the supply of the token it trades, unless a seller
cannot deliver what its buyer has paid for; then it makes some, and never destroys any.
-/

namespace Hypercore

open Exec Int128

namespace AppState

/-- The fills of a spot order are delivered. -/
def Delivers (sender : AccountAddress) : EffectCond
  | s, .spotOrder m q t => ∀ e, s.spot = some e → e.OrderDelivers sender m q t
  | _, _ => True

/-! ### Two conditions at once -/

section And

variable {G G' : EffectCond} {s : AppState} {sender : AccountAddress} {t : Timestamp}

theorem BatchMeets.and {wires : List OrderWire} {b : OrderBatch}
    (h : BatchMeets G sender t wires b) (h' : BatchMeets G' sender t wires b) :
    BatchMeets (fun s i => G s i ∧ G' s i) sender t wires b := by
  induction wires generalizing b with
  | nil => trivial
  | cons wire wires ih =>
    exact ⟨fun q hq => ⟨h.1 q hq, h'.1 q hq⟩, fun b' hb => ih (h.2 b' hb) (h'.2 b' hb)⟩

theorem ActionMeets.and {action : TransactionType} (h : ActionMeets G s sender t action)
    (h' : ActionMeets G' s sender t action) :
    ActionMeets (fun s i => G s i ∧ G' s i) s sender t action := by
  cases action with
  | order | spotOrder => exact BatchMeets.and h h'
  | evmAction | usdTransfer | withdraw => exact fun x hx => ⟨h x hx, h' x hx⟩
  | viewTransfer => exact fun k x hk hx => ⟨h k x hk hx, h' k x hk hx⟩
  | _ => trivial

end And

/-! ### Effects -/

section Effects

variable {s s' : AppState} {k : TokenIndex} {sender : AccountAddress}

theorem setPerp_supply {e e' : Engine} (he : s.perp = some e)
    (hsupply : e'.tokenSupply k = e.tokenSupply k) :
    (s.setPerp e').unifiedState.supply k = s.unifiedState.supply k := by
  unfold setPerp
  dsimp only
  cases hu : e'.unifiedState with
  | none => rfl
  | some u =>
    obtain ⟨e₀, -, rfl⟩ := Option.map_eq_some_iff.mp he
    unfold Engine.tokenSupply at hsupply
    rw [hu, Option.map_map] at hsupply
    obtain ⟨v, -, hv⟩ := Option.map_eq_some_iff.mp hsupply.symm
    exact hv.symm

/-- A call into the perp engine that is an operation of its own. -/
theorem onPerp_supply {f : Engine → Exec Engine} (hk : (0 : TokenIndex) ≠ k)
    (hf : ∀ e e', f e = .ok e' → ∃ op, ¬ Engine.External op ∧ Engine.step op e = .ok e')
    (h : s.onPerp f = .ok s') : s'.unifiedState.supply k = s.unifiedState.supply k := by
  unfold onPerp at h
  split at h
  · obtain rfl := pure_inv h
    rfl
  · rename_i e he
    obtain ⟨e', he', h⟩ := bind_inv h
    obtain rfl := pure_inv h
    obtain ⟨op, hown, hop⟩ := hf e e' he'
    exact setPerp_supply he (Engine.step_tokenSupply op hk hown hop)

/-- A call into the spot engine does what it does to the engine's sheet. -/
theorem onSpot_supply {R : Int → Int → Prop} {f : SpotEngineState → Exec SpotEngineState}
    (hrefl : ∀ x, R x x) (hf : ∀ e e', s.spot = some e → f e = .ok e' →
      R (e.unifiedState.supply k) (e'.unifiedState.supply k))
    (h : s.onSpot f = .ok s') : R (s.unifiedState.supply k) (s'.unifiedState.supply k) := by
  unfold onSpot at h
  split at h
  · obtain rfl := pure_inv h
    exact hrefl _
  · rename_i e he
    obtain ⟨e', he', h⟩ := bind_inv h
    obtain rfl := pure_inv h
    have hsupply := hf e e' he he'
    obtain ⟨e₀, -, rfl⟩ := Option.map_eq_some_iff.mp he
    exact hsupply

theorem onUnified_supply {f : UnifiedState → Exec UnifiedState}
    (hf : ∀ u u', f u = .ok u' → u'.supply k = u.supply k) (h : s.onUnified f = .ok s') :
    s'.unifiedState.supply k = s.unifiedState.supply k := by
  obtain ⟨u, hu, h⟩ := bind_inv h
  obtain rfl := pure_inv h
  exact hf _ _ hu

/-- Every spot market is quoted in USDC. -/
theorem Leads.quote (hs : s.Leads) {e : SpotEngineState} (he : s.spot = some e)
    {m : SpotMarketId} {market : SpotMarket} (hm : e.getMarket m = some market) :
    market.config.quoteToken = 0 := by
  obtain ⟨u, harrives⟩ := hs.spot_arrives he
  exact (harrives.scaled.listed.quote m market hm).1

/-- **Step lemma.** An effect that is no spot order keeps the supply of every token but USDC. -/
theorem applyEffect_supply (hk : (0 : TokenIndex) ≠ k) {i : Effect}
    (hi : ∀ m q t, i ≠ .spotOrder m q t) (h : applyEffect sender i s = .ok s') :
    s'.unifiedState.supply k = s.unifiedState.supply k := by
  cases i with
  | spotOrder m q t => exact absurd rfl (hi m q t)
  | spotCancel m id =>
    refine (onSpot_supply (fun _ => rfl) (fun e e' _ hcancel => ?_) h).symm
    obtain ⟨⟨r, e₁⟩, h1, heq⟩ := bind_inv hcancel
    obtain rfl := pure_inv heq
    exact ((SpotEngineState.cancelOrder_sheet h1).supply k).symm
  | spotCancelAll m =>
    refine (onSpot_supply (fun _ => rfl) (fun e e' _ hcancel => ?_) h).symm
    obtain ⟨⟨r, e₁⟩, h1, heq⟩ := bind_inv hcancel
    obtain rfl := pure_inv heq
    exact ((SpotEngineState.cancelOrders_sheet h1).supply k).symm
  | viewTransfer j x toEvm =>
    refine (onSpot_supply (fun _ => rfl) (fun e e' _ hview => ?_) h).symm
    obtain ⟨⟨r, e₁⟩, h1, heq⟩ := bind_inv hview
    obtain rfl := pure_inv heq
    exact ((SpotEngineState.viewTransfer_supply h1).1 k).symm
  | updateLeverage m l =>
    simp only [applyEffect] at h
    split at h
    · obtain rfl := pure_inv h
      rfl
    · exact onPerp_supply hk (fun e e' he => ⟨.updateLeverage sender m l, id, he⟩) h
  | perpOrder q t => exact onPerp_supply hk (fun e e' he => ⟨.placeOrder sender q t, id, he⟩) h
  | perpCancel m id' =>
    exact onPerp_supply hk (fun e e' he => ⟨.cancelOrder sender m id', id, he⟩) h
  | perpCancelAll m =>
    exact onPerp_supply hk (fun e e' he => ⟨.cancelAllOrders sender m, id, he⟩) h
  | setMarginMode mode =>
    exact onPerp_supply hk (fun e e' he => ⟨.setMarginMode sender mode, id, he⟩) h
  | cancelTrigger id' =>
    exact onPerp_supply hk (fun e e' he => ⟨.cancelTrigger id', id, he⟩) h
  | usdTransfer d x =>
    simp only [applyEffect] at h
    refine onUnified_supply (fun u u' hu => ?_) h
    obtain ⟨⟨r, u₁⟩, h1, heq⟩ := bind_inv hu
    obtain rfl := pure_inv heq
    exact UnifiedState.transferCore_other h1 hk
  | withdraw x =>
    simp only [applyEffect] at h
    refine onUnified_supply (fun u u' hu => ?_) h
    obtain ⟨⟨r, u₁⟩, h1, heq⟩ := bind_inv hu
    obtain rfl := pure_inv heq
    exact UnifiedState.debitCore_other h1 hk
  | evmMove j x toEvm =>
    simp only [applyEffect] at h
    refine onUnified_supply (fun u u' hu => ?_) h
    split at hu
    · obtain ⟨⟨r, u₁⟩, h1, heq⟩ := bind_inv hu
      obtain rfl := pure_inv heq
      exact (UnifiedState.transferToEvmView_moves h1).supply k
    · obtain ⟨⟨r, u₁⟩, h1, heq⟩ := bind_inv hu
      obtain rfl := pure_inv heq
      exact (UnifiedState.transferToCoreView_moves h1).supply k
  | bookkeeping c o p n =>
    obtain rfl := pure_inv h
    rfl

/-- A spot order keeps the supply too, when its fills are delivered. -/
theorem applyEffect_delivered (hs : s.Leads) (hk : (0 : TokenIndex) ≠ k) {i : Effect}
    (hi : Delivers sender s i) (h : applyEffect sender i s = .ok s') :
    s.unifiedState.supply k = s'.unifiedState.supply k := by
  by_cases horder : ∃ m q t, i = .spotOrder m q t
  · obtain ⟨m, q, t, rfl⟩ := horder
    refine onSpot_supply (fun _ => rfl) (fun e e' he hplace => ?_) h
    obtain ⟨⟨r, e₁⟩, h1, heq⟩ := bind_inv hplace
    obtain rfl := pure_inv heq
    refine (SpotEngineState.placeOrder_supply (fun market hm => ?_) (hi e he) h1).symm
    rw [hs.quote he hm]
    exact hk
  · exact (applyEffect_supply hk (fun m q t heq => horder ⟨m, q, t, heq⟩) h).symm

/-- It destroys nothing in any case. -/
theorem applyEffect_grows (hs : s.Leads) (hk : (0 : TokenIndex) ≠ k) {i : Effect}
    (hi : OnWire s i) (h : applyEffect sender i s = .ok s') :
    s.unifiedState.supply k ≤ s'.unifiedState.supply k := by
  by_cases horder : ∃ m q t, i = .spotOrder m q t
  · obtain ⟨m, q, t, rfl⟩ := horder
    refine onSpot_supply (fun _ => le_rfl) (fun e e' he hplace => ?_) h
    obtain ⟨⟨r, e₁⟩, h1, heq⟩ := bind_inv hplace
    obtain rfl := pure_inv heq
    obtain ⟨w, -, hw⟩ := hi
    obtain ⟨u, harrives⟩ := hs.spot_arrives he
    refine SpotEngineState.placeOrder_grows harrives.scaled (OrderWire.toOrderRequest_size hw)
      (fun market hm => ?_) h1
    rw [hs.quote he hm]
    exact hk
  · exact (applyEffect_supply hk (fun m q t heq => horder ⟨m, q, t, heq⟩) h).ge

theorem delivers_free (s : AppState) (i : Effect) (h : i.free = true) : Delivers sender s i := by
  cases i with
  | spotOrder => cases h
  | _ => trivial

end Effects

/-! ### Transactions and blocks -/

/-- The effects of a transaction meet a condition. -/
def TxMeets (G : AccountAddress → EffectCond) (s : AppState) : AppOp → Prop
  | .tx tx t => ∀ sender, tx.signer = some sender →
      ActionMeets (G sender) s sender t tx.action
  | _ => True

section Run

variable {s s' s₀ : AppState} {k : TokenIndex} {G : AccountAddress → EffectCond}
  {R : Int → Int → Prop} {a : AccountAddress}

theorem finishBlock_supply {ord : HashOrder} (hk : (0 : TokenIndex) ≠ k)
    (h : finishBlock ord s = .ok s') : s'.unifiedState.supply k = s.unifiedState.supply k := by
  obtain ⟨⟨events, s₁⟩, hup, h⟩ := bind_inv h
  obtain rfl := pure_inv h
  have hkept : s₁.unifiedState.supply k = s.unifiedState.supply k := by
    unfold upkeep at hup
    split at hup
    · obtain ⟨-, rfl⟩ := pair_inv hup
      rfl
    · rename_i e he
      obtain ⟨⟨rates, e₁⟩, hfunding, hup⟩ := bind_inv hup
      obtain ⟨⟨done, e₂⟩, hliquidations, hup⟩ := bind_inv hup
      obtain ⟨-, rfl⟩ := pair_inv hup
      have h1 : e₁.tokenSupply k = e.tokenSupply k :=
        Engine.step_tokenSupply (.processFunding s.timestamp) hk id
          (bind_eq_ok.mpr ⟨_, hfunding, rfl⟩)
      have h2 : e₂.tokenSupply k = e₁.tokenSupply k :=
        Engine.step_tokenSupply (.processLiquidations ord) hk id
          (bind_eq_ok.mpr ⟨_, hliquidations, rfl⟩)
      exact setPerp_supply he (h2.trans h1)
  exact hkept

section Rule

variable (hrefl : ∀ x, R x x) (htrans : ∀ x y z, R x y → R y z → R x z)
  (hfree : ∀ a s i, Effect.free i = true → G a s i)
  (heffect : ∀ a s i s', s.Leads → OnWire s i → G a s i → applyEffect a i s = .ok s' →
    R (s.unifiedState.supply k) (s'.unifiedState.supply k))

include hrefl htrans hfree heffect

theorem executeTx_supply {tx : Transaction} {t : Timestamp} {r : Except AppError TxResult}
    (hs : s.Leads) (hmeets : s.TxMeets G (.tx tx t)) (h : s.executeTx tx t = .ok (r, s')) :
    R (s.unifiedState.supply k) (s'.unifiedState.supply k) := by
  rcases executeTx_cases h with ⟨rfl, -⟩ | ⟨a, ra, s₁, ha, -, hact, hend⟩
  · exact hrefl _
  · have hrun := executeAction_reaches (G := fun s i => OnWire s i ∧ G a s i)
      (fun s i hi => ⟨onWire_free s i hi, hfree a s i hi⟩)
      ((onWire_action s a t tx.action).and (hmeets a ha)) hact
    have hs₁ : s₁.Leads ∧ R (s.unifiedState.supply k) (s₁.unifiedState.supply k) := by
      refine hrun.invariant (P := fun s₁ => s₁.Leads ∧
        R (s.unifiedState.supply k) (s₁.unifiedState.supply k)) ⟨hs, hrefl _⟩ ?_
      intro s₂ i s₃ ⟨hleads, hsupply⟩ ⟨hwire, hmet⟩ hstep
      exact ⟨hleads.applyEffect hwire hstep,
        htrans _ _ _ hsupply (heffect a s₂ i s₃ hleads hwire hmet hstep)⟩
    rcases hend with ⟨e, -, -, rfl⟩ | ⟨events, s₂, -, -, hinc, rfl⟩
    · exact hs₁.2
    · obtain ⟨next, -, hinc⟩ := bind_inv hinc
      obtain rfl := pure_inv hinc
      unfold updateTimestampNonce
      split <;> exact hs₁.2

/-- **Run rule.** What every effect does to the supply of a token but USDC, a run does. -/
theorem run_supply {g : GenesisState} (hg : genesis g = .ok s₀)
    (hrun : Run.Reaches step (TxMeets G) s₀ s) (hk : (0 : TokenIndex) ≠ k) :
    R (s₀.unifiedState.supply k) (s.unifiedState.supply k) := by
  have hinv : s.Leads ∧ R (s₀.unifiedState.supply k) (s.unifiedState.supply k) := by
    refine hrun.invariant (P := fun s => s.Leads ∧
      R (s₀.unifiedState.supply k) (s.unifiedState.supply k)) ⟨.genesis hg, hrefl _⟩ ?_
    intro s op s' ⟨hs, hsupply⟩ hok hstep
    cases op with
    | tx tx t =>
      obtain ⟨⟨r, s₁⟩, h1, hstep⟩ := bind_inv hstep
      obtain rfl := pure_inv hstep
      exact ⟨hs.executeTx h1, htrans _ _ _ hsupply
        (executeTx_supply hrefl htrans hfree heffect hs hok h1)⟩
    | beginBlock h t =>
      obtain rfl := pure_inv hstep
      exact ⟨⟨hs.perp, hs.spot⟩, hsupply⟩
    | endBlock ord =>
      refine ⟨hs.finishBlock hstep, ?_⟩
      rw [finishBlock_supply hk hstep]
      exact hsupply
  exact hinv.2

end Rule

/-- **Supply.** No run from genesis destroys a token but USDC, and a run whose spot fills are
delivered makes none either. An action is a run of effects, and of these only a spot order with an
undelivered fill makes tokens. -/
theorem token_supply_kept {g : GenesisState} (hg : genesis g = .ok s₀) (hk : k ≠ 0) :
    (Run.Reaches step (fun _ _ => True) s₀ s →
      s₀.unifiedState.supply k ≤ s.unifiedState.supply k) ∧
    (Run.Reaches step (TxMeets Delivers) s₀ s →
      s.unifiedState.supply k = s₀.unifiedState.supply k) := by
  constructor
  · intro hrun
    refine run_supply (G := fun _ => OnWire) (R := (· ≤ ·)) (fun _ => le_rfl)
      (fun _ _ _ => le_trans) (fun _ => onWire_free)
      (fun a s i s' hs hi _ h => applyEffect_grows hs hk.symm hi h) hg
      (hrun.mono fun s op _ => ?_) hk.symm
    cases op with
    | tx tx t => exact fun sender _ => onWire_action s sender t tx.action
    | _ => trivial
  · intro hrun
    exact (run_supply (R := (· = ·)) (fun _ => rfl) (fun _ _ _ => Eq.trans)
      (fun _ s i => delivers_free s i)
      (fun a s i s' hs _ hi h => applyEffect_delivered hs hk.symm hi h) hg hrun hk.symm).symm

/-- A spot order of one account. -/
def spotTx (sender : AccountAddress) (wire : OrderWire) : AppOp :=
  .tx { action := .spotOrder [wire], nonce := 0, signer := some sender } 0

/-- The order would be accepted. -/
def takesSpot (s : AppState) (sender : AccountAddress) (wire : OrderWire) : Bool :=
  match s.spot, wire.toOrderRequest with
  | some e, .ok q => match e.placeOrder sender wire.a q 0 with
    | .ok (.ok _, _) => true
    | _ => false
  | _, _ => false

theorem txMeets_of_takesSpot {wire : OrderWire} (h : s.takesSpot a wire = true) :
    s.TxMeets Delivers (spotTx a wire) := by
  intro sender hsender
  obtain rfl := Option.some.inj hsender
  refine ⟨fun q hq => ?_, fun _ _ => trivial⟩
  unfold orderEffect
  split
  · intro e he
    unfold takesSpot at h
    rw [show s.spot = some e from he, hq] at h
    dsimp only at h
    split at h
    · rename_i hplaced
      exact SpotEngineState.orderDelivers_of_accepted hplaced
    · cases h
  · trivial

/-- Buying, or selling, a hundredth of a token at two USDC. -/
def hundredth (b : Bool) : OrderWire :=
  { a := 128, b, p := "2", s := "0.01", r := false, t := .limit "Gtc", c := none }

/-- Account 1 bids for the token of `spotGenesis`, and the deployer sells to it. -/
theorem sold_token_kept : ∃ s₀ s₁ s, genesis spotGenesis = .ok s₀ ∧
    step (spotTx 1 (hundredth true)) s₀ = .ok s₁ ∧
    step (spotTx systemDeployer (hundredth false)) s₁ = .ok s ∧
    s.unifiedState.coreRaw 1 1 = 1000000 ∧
    s.unifiedState.supply 1 = s₀.unifiedState.supply 1 := by
  obtain ⟨x, hs, htest⟩ := exists_of_test
    (x := do
      let s₀ ← genesis spotGenesis
      let s₁ ← step (spotTx 1 (hundredth true)) s₀
      let s ← step (spotTx systemDeployer (hundredth false)) s₁
      return (s₀, s₁, s))
    (p := fun x : AppState × AppState × AppState => x.1.takesSpot 1 (hundredth true) &&
      x.2.1.takesSpot systemDeployer (hundredth false) &&
      decide (x.2.2.unifiedState.coreRaw 1 1 = 1000000)) (by decide +kernel)
  obtain ⟨s₀, h0, hs⟩ := bind_inv hs
  obtain ⟨s₁, h1, hs⟩ := bind_inv hs
  obtain ⟨s, h2, hs⟩ := bind_inv hs
  cases pure_inv hs
  simp only [Bool.and_eq_true, decide_eq_true_eq] at htest
  obtain ⟨⟨hbid, hsale⟩, hbought⟩ := htest
  exact ⟨s₀, s₁, s, h0, h1, h2, hbought, (token_supply_kept (k := 1) h0 (by decide)).2
    ((Run.Reaches.refl.tail _ (txMeets_of_takesSpot hbid) h1).tail _
      (txMeets_of_takesSpot hsale) h2)⟩

end Run

end AppState

end Hypercore
