import Hypercore.Primitives.BalanceSheet
import Hypercore.Primitives.DecimalText
import Hypercore.Spot.State
/-!
# Hypercore.Spot.Deployment

Runs of token deployments.

Token indices and market ids come from two `u8` counters, which a build with overflow checks
traps at their end and one without them wraps: `Overflow` is the kind of build. The ids that
were issued are kept beside the engine, and after `n` deployments they are the first `n` of
each counter (`Deployments.Counted`).
-/

namespace Hypercore

open Exec Int128

/-! ### The two kinds of build -/

/-- A `u8` addition whose exact value is `n`. -/
def Overflow.u8 : Overflow → Nat → Exec UInt8
  | trap, n => Hypercore.u8 n
  | wrap, n => return UInt8.ofNat n

theorem Overflow.u8_eq_ok {o : Overflow} {n : Nat} {v : UInt8} (h : o.u8 n = .ok v) :
    v = UInt8.ofNat n := by
  cases o with
  | trap =>
    simp only [u8, Hypercore.u8] at h
    by_cases hn : n < 256
    · rw [if_pos hn] at h
      exact (Except.ok.inj h).symm
    · rw [if_neg hn] at h
      cases h
  | wrap => exact (pure_inv h).symm

/-- A new spot market for a token/USDC pair. Without checks the power of ten of the lot size
wraps. -/
def SpotMarketConfig.newUsdcPairIn : Overflow → SpotToken → SpotMarketId → Exec SpotMarketConfig
  | .trap, base, id => newUsdcPair base id
  | .wrap, base, id =>
    let lotSizeRaw := ofU128 (10 ^ (base.weiDecimals - base.szDecimals).toNat % 2 ^ 128)
    let wei := base.weiDecimals.toNat
    return {
      id
      symbol := base.symbol ++ "-USDC"
      baseToken := base.index
      quoteToken := 0
      tickSize := ⟨10000, 8⟩
      lotSize := ⟨lotSizeRaw, wei⟩
      minOrderSize := ⟨lotSizeRaw, wei⟩
      maxOrderSize := ⟨saturatingMul lotSizeRaw 1000000000000, wei⟩
      makerFeeRate := ⟨-2000000, 10⟩
      takerFeeRate := ⟨5000000, 10⟩
      isActive := true }

/-- Who gets how much: the listed allocations, or all of it for the deployer. -/
def SpotTokenDeployParams.allocations (params : SpotTokenDeployParams)
    (deployer : AccountAddress) : List (AccountAddress × Decimal) :=
  if params.genesisAllocations = [] then [(deployer, params.maxSupply)]
  else params.genesisAllocations

namespace SpotEngineState

/-- Deploy a new spot token with its USDC market. -/
def deployTokenIn (o : Overflow) (s : SpotEngineState) (params : SpotTokenDeployParams)
    (deployer : AccountAddress) : Exec (Except Error SpotToken × SpotEngineState) :=
  if params.symbol.utf8ByteSize > 6 then
    return (.error (.internal "Invalid input: Symbol must be <= 6 characters"), s)
  else do
    let needed ← o.u8 (params.szDecimals.toNat + 5)
    if needed > params.weiDecimals then
      return (.error (.internal "Invalid input: szDecimals + 5 must be <= weiDecimals"), s)
    else
      let token : SpotToken :=
        ⟨s.nextTokenIndex, params.symbol, params.weiDecimals, params.szDecimals⟩
      let nextTokenIndex ← o.u8 (s.nextTokenIndex.toNat + 1)
      let s ← (params.allocations deployer).foldlM
        (fun s (a, amount) => s.creditBalance a token.index amount) { s with nextTokenIndex }
      let nextMarketId ← o.u8 (s.nextMarketId.toNat + 1)
      let config ← SpotMarketConfig.newUsdcPairIn o token s.nextMarketId
      return (.ok token, { s with
        tokens := s.tokens.insert token.index token
        markets := s.markets.insert s.nextMarketId (.new config)
        orderbooks := s.orderbooks.insert s.nextMarketId .new
        orders := s.orders.insert s.nextMarketId ∅
        nextMarketId })

end SpotEngineState

/-! ### What the allocations add up to -/

namespace UnifiedState

/-- The balance of a token over all accounts. -/
def balanceTotal (u : UnifiedState) (token : TokenIndex) : ℚ :=
  FinMap.total (fun key b => if key.snd = token then b.total.toRat else 0) u.balances

end UnifiedState

/-- What a list of allocations grants in all. The balance of a recipient is on the scale of
the first amount it gets, and later amounts are added to it as raw values; `seen` has the
recipients so far. -/
def granted (seen : FinMap AccountAddress Nat) : List (AccountAddress × Decimal) → ℚ
  | [] => 0
  | (a, amount) :: rest =>
    let places := (seen[a]?).getD amount.decimals
    Decimal.toRat ⟨amount.value, places⟩ + granted (seen.insert a places) rest

namespace UnifiedState

variable {u u' u₀ : UnifiedState} {a : AccountAddress} {k : TokenIndex} {amount : Decimal}
  {seen : FinMap AccountAddress Nat}

theorem balanceTotal_setBalance (c : UnifiedBalance) :
    (u.setBalance a k c).balanceTotal k = u.balanceTotal k +
      (c.total.toRat - ((u.getBalance a k).map (·.total.toRat)).getD 0) := by
  unfold balanceTotal
  rw [sum_setBalance fun b => b.total.toRat, if_pos rfl]

/-- The entries of `k` are those of the recipients so far, on their scales, and the other
entries are those of `u₀`. -/
structure Tallied (u₀ : UnifiedState) (k : TokenIndex) (seen : FinMap AccountAddress Nat)
    (u : UnifiedState) : Prop where
  places : ∀ a : AccountAddress, (u.getBalance a k).map (·.total.decimals) = seen[a]?
  others : ∀ a k', k ≠ k' → u.getBalance a k' = u₀.getBalance a k'

theorem toRat_add (v w : Int) (d : Nat) :
    Decimal.toRat ⟨v + w, d⟩ = Decimal.toRat ⟨v, d⟩ + Decimal.toRat ⟨w, d⟩ := by
  unfold Decimal.toRat
  push_cast
  rw [add_div]

/-- **Credit.** It grants its amount on the scale of the recipient. -/
theorem Tallied.credit (h : Tallied u₀ k seen u) (hret : u.credit a k amount = .ok u') :
    Tallied u₀ k (seen.insert a ((seen[a]?).getD amount.decimals)) u' ∧
      u'.balanceTotal k =
        u.balanceTotal k + Decimal.toRat ⟨amount.value, (seen[a]?).getD amount.decimals⟩ := by
  obtain ⟨total, htotal, hret⟩ := bind_inv hret
  obtain ⟨core, -, hret⟩ := bind_inv hret
  obtain rfl := pure_inv hret
  obtain ⟨-, rfl⟩ := Decimal.add_eq_ok.mp htotal
  have hplaces : (u.entryFor a k amount).total.decimals = (seen[a]?).getD amount.decimals := by
    rw [← h.places]
    unfold entryFor
    cases u.getBalance a k <;> rfl
  have hvalue : Decimal.toRat ⟨(u.entryFor a k amount).total.value,
      (u.entryFor a k amount).total.decimals⟩ =
        ((u.getBalance a k).map (·.total.toRat)).getD 0 := by
    unfold entryFor
    cases u.getBalance a k with
    | none => simp [Decimal.toRat, UnifiedBalance.new]
    | some b => rfl
  refine ⟨⟨fun b => ?_, fun b k' hk => ?_⟩, ?_⟩
  · rw [getBalance_setBalance, FinMap.get_insert]
    by_cases hab : a = b
    · rw [if_pos ⟨hab, rfl⟩, if_pos hab, ← hplaces]
      rfl
    · rw [if_neg fun hb => hab hb.1, if_neg hab]
      exact h.places b
  · rw [getBalance_setBalance, if_neg fun hb => hk hb.2]
    exact h.others b k' hk
  · rw [balanceTotal_setBalance, toRat_add, hvalue, hplaces, add_sub_cancel_left]

/-- **Allocations.** Together they grant what `granted` says. -/
theorem Tallied.allocate {l : List (AccountAddress × Decimal)} : ∀ {seen u},
    Tallied u₀ k seen u → l.foldlM (fun u p => u.credit p.1 k p.2) u = .ok u' →
    (∀ a k', k ≠ k' → u'.getBalance a k' = u₀.getBalance a k') ∧
      u'.balanceTotal k = u.balanceTotal k + granted seen l := by
  induction l with
  | nil =>
    intro seen u h hret
    obtain rfl := foldlM_nil_eq_ok.mp hret
    exact ⟨h.others, (add_zero _).symm⟩
  | cons p l ih =>
    intro seen u h hret
    obtain ⟨a, amount⟩ := p
    obtain ⟨w, hw, hret⟩ := foldlM_cons_eq_ok.mp hret
    obtain ⟨htally, htotal⟩ := h.credit hw
    obtain ⟨hothers, hgranted⟩ := ih htally hret
    refine ⟨hothers, ?_⟩
    rw [hgranted, htotal, granted, add_assoc]

end UnifiedState

/-! ### One call -/

namespace SpotEngineState

variable {o : Overflow} {s s' : SpotEngineState} {params : SpotTokenDeployParams}
  {deployer : AccountAddress} {r : Except Error SpotToken} {token : SpotToken}

/-- Crediting many accounts works on the balance sheet alone. -/
theorem creditAll_eq {l : List (AccountAddress × Decimal)} {k : TokenIndex} {s₁ : SpotEngineState}
    (h : l.foldlM (fun s p => s.creditBalance p.1 k p.2) s = .ok s₁) :
    ∃ u, l.foldlM (fun u p => u.credit p.1 k p.2) s.unifiedState = .ok u ∧
      s₁ = { s with unifiedState := u } := by
  induction l generalizing s with
  | nil =>
    obtain rfl := foldlM_nil_eq_ok.mp h
    exact ⟨_, rfl, rfl⟩
  | cons p l ih =>
    obtain ⟨s₂, h2, h⟩ := foldlM_cons_eq_ok.mp h
    obtain ⟨w, hw, h2⟩ := bind_inv h2
    obtain rfl := pure_inv h2
    obtain ⟨u, hu, rfl⟩ := ih h
    exact ⟨u, foldlM_cons_eq_ok.mpr ⟨w, hw, hu⟩, rfl⟩

/-- What a deployment that succeeds does: it takes the next index and the next market id. -/
structure Deploys (o : Overflow) (s : SpotEngineState) (params : SpotTokenDeployParams)
    (deployer : AccountAddress) (token : SpotToken) (s' : SpotEngineState) : Prop where
  index : token.index = s.nextTokenIndex
  nextToken : s'.nextTokenIndex = UInt8.ofNat (s.nextTokenIndex.toNat + 1)
  nextMarket : s'.nextMarketId = UInt8.ofNat (s.nextMarketId.toNat + 1)
  tokens : s'.tokens = s.tokens.insert token.index token
  markets : ∃ market, s'.markets = s.markets.insert s.nextMarketId market
  orderbooks : s'.orderbooks = s.orderbooks.insert s.nextMarketId .new
  credits : (params.allocations deployer).foldlM (fun u p => u.credit p.1 token.index p.2)
    s.unifiedState = .ok s'.unifiedState

/-- **Inversion.** A deployment fails and leaves the state, or does what it should. -/
theorem deployTokenIn_cases (h : s.deployTokenIn o params deployer = .ok (r, s')) :
    ((∃ e, r = .error e) ∧ s' = s) ∨
      ∃ token, r = .ok token ∧ Deploys o s params deployer token s' := by
  unfold deployTokenIn at h
  split at h
  · obtain ⟨rfl, rfl⟩ := pair_inv h
    exact .inl ⟨⟨_, rfl⟩, rfl⟩
  · obtain ⟨needed, -, h⟩ := bind_inv h
    split at h
    · obtain ⟨rfl, rfl⟩ := pair_inv h
      exact .inl ⟨⟨_, rfl⟩, rfl⟩
    · obtain ⟨next, hnext, h⟩ := bind_inv h
      obtain ⟨s₁, h1, h⟩ := bind_inv h
      obtain ⟨nextMarketId, hmarket, h⟩ := bind_inv h
      obtain ⟨config, -, h⟩ := bind_inv h
      obtain ⟨rfl, rfl⟩ := pair_inv h
      obtain ⟨u, hu, rfl⟩ := creditAll_eq h1
      exact .inr ⟨_, rfl, rfl, Overflow.u8_eq_ok hnext, Overflow.u8_eq_ok hmarket, rfl,
        ⟨_, rfl⟩, rfl, hu⟩

end SpotEngineState

/-! ### Runs -/

/-- An engine with the token indices and market ids that were issued on it. -/
structure Deployments where
  engine : SpotEngineState
  issued : List (TokenIndex × SpotMarketId)

namespace Deployments

/-- A new engine. -/
def start : Deployments := ⟨.withUnifiedState .new, []⟩

/-- One call; what it issues is recorded if it succeeds. -/
def step (o : Overflow) (call : SpotTokenDeployParams × AccountAddress) (d : Deployments) :
    Exec Deployments := do
  let (r, engine) ← d.engine.deployTokenIn o call.1 call.2
  match r with
  | .ok token => return ⟨engine, d.issued ++ [(token.index, d.engine.nextMarketId)]⟩
  | .error _ => return ⟨engine, d.issued⟩

/-- The token counter has not come back to the index of USDC. -/
def Unwrapped (d : Deployments) : Prop := d.engine.nextTokenIndex ≠ 0

/-- Runs of calls, none of them after the token counter wrapped. -/
def Reachable (o : Overflow) (d : Deployments) : Prop :=
  Run.Reaches (step o) (fun d _ => d.Unwrapped) .start d

/-- A call that succeeded got ids of its own, left everything issued before it, and did not
create more of its token than the maximum supply. -/
structure Sound (d : Deployments) (params : SpotTokenDeployParams) (token : SpotToken)
    (s' : SpotEngineState) : Prop where
  not_usdc : token.index ≠ 0
  index_new : ∀ p ∈ d.issued, p.1 ≠ token.index
  market_new : ∀ p ∈ d.issued, p.2 ≠ d.engine.nextMarketId
  tokens_kept : ∀ (i : TokenIndex) t, d.engine.tokens[i]? = some t → s'.tokens[i]? = some t
  markets_kept : ∀ (i : SpotMarketId) m, d.engine.markets[i]? = some m → s'.markets[i]? = some m
  books_kept : ∀ (i : SpotMarketId) b,
    d.engine.orderbooks[i]? = some b → s'.orderbooks[i]? = some b
  balances_kept : ∀ a k b, d.engine.unifiedState.getBalance a k = some b →
    s'.unifiedState.getBalance a k = some b
  supply : s'.unifiedState.balanceTotal token.index ≤ params.maxSupply.toRat

/-- What the calls so far have issued: the first ids of each counter, and nothing else is on
the engine. -/
structure Counted (d : Deployments) : Prop where
  bounded : d.issued.length ≤ 255
  issued : d.issued =
    (List.range d.issued.length).map fun i => (UInt8.ofNat (i + 1), UInt8.ofNat (128 + i))
  nextToken : d.engine.nextTokenIndex = UInt8.ofNat (d.issued.length + 1)
  nextMarket : d.engine.nextMarketId = UInt8.ofNat (128 + d.issued.length)
  tokens : ∀ (i : TokenIndex) t, d.engine.tokens[i]? = some t → i.toNat ≤ d.issued.length
  markets : ∀ (i : SpotMarketId) m, d.engine.markets[i]? = some m →
    ∃ p ∈ d.issued, p.2 = i
  books : ∀ (i : SpotMarketId) b, d.engine.orderbooks[i]? = some b → ∃ p ∈ d.issued, p.2 = i
  balances : ∀ a k b, d.engine.unifiedState.getBalance a k = some b →
    k.toNat ≤ d.issued.length

variable {o : Overflow} {d d' : Deployments} {s' : SpotEngineState}
  {params : SpotTokenDeployParams} {deployer : AccountAddress} {token : SpotToken}

theorem counted_start : start.Counted where
  bounded := Nat.zero_le _
  issued := rfl
  nextToken := rfl
  nextMarket := rfl
  tokens i t h := by
    simp only [start, SpotEngineState.withUnifiedState, FinMap.get_insert] at h
    split at h
    · rename_i hi
      subst hi
      exact Nat.le_refl 0
    · rw [FinMap.get_empty] at h
      cases h
  markets i m h := by
    simp only [start, SpotEngineState.withUnifiedState, FinMap.get_empty] at h
    cases h
  books i b h := by
    simp only [start, SpotEngineState.withUnifiedState, FinMap.get_empty] at h
    cases h
  balances a k b h := by
    have hnone : (start.engine.unifiedState).getBalance a k = none := by
      simp only [start, SpotEngineState.withUnifiedState, UnifiedState.new,
        UnifiedState.getBalance, FinMap.get_empty]
    rw [hnone] at h
    cases h

/-- Before the counter wraps its value is above every index that was issued. -/
theorem Counted.next_toNat (h : d.Counted) (hun : d.Unwrapped) :
    d.issued.length < 255 ∧ d.engine.nextTokenIndex.toNat = d.issued.length + 1 := by
  have hbound := h.bounded
  have hlt : d.issued.length ≠ 255 := by
    intro hn
    refine hun ?_
    rw [h.nextToken, hn]
    rfl
  refine ⟨by omega, ?_⟩
  rw [h.nextToken, UInt8.toNat_ofNat']
  omega

theorem ofNat_succ (n : Nat) :
    UInt8.ofNat ((UInt8.ofNat n).toNat + 1) = UInt8.ofNat (n + 1) := by
  rw [← UInt8.toNat_inj, UInt8.toNat_ofNat', UInt8.toNat_ofNat', UInt8.toNat_ofNat']
  omega

variable {p : TokenIndex × SpotMarketId}

/-- What was issued, by position. -/
theorem Counted.mem_issued (h : d.Counted) (hp : p ∈ d.issued) :
    ∃ i < d.issued.length, p = (UInt8.ofNat (i + 1), UInt8.ofNat (128 + i)) := by
  rw [h.issued] at hp
  obtain ⟨i, hi, rfl⟩ := List.mem_map.mp hp
  exact ⟨i, List.mem_range.mp hi, rfl⟩

theorem Counted.market_new (h : d.Counted) (hun : d.Unwrapped) (hp : p ∈ d.issued) :
    p.2 ≠ d.engine.nextMarketId := by
  obtain ⟨i, hi, rfl⟩ := h.mem_issued hp
  have hbound := (h.next_toNat hun).1
  rw [h.nextMarket]
  intro heq
  have hnat := congrArg UInt8.toNat heq
  rw [UInt8.toNat_ofNat', UInt8.toNat_ofNat'] at hnat
  omega

theorem Counted.index_new (h : d.Counted) (hun : d.Unwrapped) (hp : p ∈ d.issued) :
    p.1 ≠ d.engine.nextTokenIndex := by
  obtain ⟨i, hi, rfl⟩ := h.mem_issued hp
  obtain ⟨hbound, hnext⟩ := h.next_toNat hun
  intro heq
  rw [← heq] at hnext
  rw [UInt8.toNat_ofNat'] at hnext
  omega

/-- Nobody holds a token whose index comes next. -/
theorem Counted.tallied (h : d.Counted) (hun : d.Unwrapped) :
    UnifiedState.Tallied d.engine.unifiedState d.engine.nextTokenIndex ∅ d.engine.unifiedState where
  places a := by
    rw [FinMap.get_empty]
    cases hb : d.engine.unifiedState.getBalance a d.engine.nextTokenIndex with
    | none => rfl
    | some b =>
      have hle := h.balances a _ b hb
      have hnext := (h.next_toNat hun).2
      omega
  others _ _ _ := rfl

theorem Counted.balanceTotal (h : d.Counted) (hun : d.Unwrapped) :
    d.engine.unifiedState.balanceTotal d.engine.nextTokenIndex = 0 := by
  refine FinMap.total_eq_zero fun key b hb => ?_
  have hle := h.balances key.fst key.snd b hb
  have hnext := (h.next_toNat hun).2
  rw [if_neg]
  intro hk
  rw [hk] at hle
  omega

/-- What a deployment grants. -/
theorem Counted.allocated (h : d.Counted) (hun : d.Unwrapped)
    (hd : d.engine.Deploys o params deployer token s') :
    (∀ a k, token.index ≠ k →
      s'.unifiedState.getBalance a k = d.engine.unifiedState.getBalance a k) ∧
    s'.unifiedState.balanceTotal token.index = granted ∅ (params.allocations deployer) := by
  have htally := h.tallied hun
  have hzero := h.balanceTotal hun
  rw [← hd.index] at htally hzero
  obtain ⟨hothers, htotal⟩ := htally.allocate hd.credits
  refine ⟨hothers, ?_⟩
  rw [htotal, hzero, zero_add]

/-- **Step.** A deployment keeps the counts. -/
theorem Counted.deploys (h : d.Counted) (hun : d.Unwrapped)
    (hd : d.engine.Deploys o params deployer token s') :
    Counted ⟨s', d.issued ++ [(token.index, d.engine.nextMarketId)]⟩ := by
  obtain ⟨hbound, hnext⟩ := h.next_toNat hun
  have hothers := (h.allocated hun hd).1
  obtain ⟨market, hmarkets⟩ := hd.markets
  have hlength : (d.issued ++ [(token.index, d.engine.nextMarketId)]).length =
      d.issued.length + 1 := by simp
  have hold : ∀ {i : SpotMarketId}, (∃ p ∈ d.issued, p.2 = i) →
      ∃ p ∈ d.issued ++ [(token.index, d.engine.nextMarketId)], p.2 = i := fun ⟨p, hp, hi⟩ =>
    ⟨p, List.mem_append_left _ hp, hi⟩
  have hnew : ∃ p ∈ d.issued ++ [(token.index, d.engine.nextMarketId)],
      p.2 = d.engine.nextMarketId := ⟨_, List.mem_append_right _ (.head _), rfl⟩
  constructor
  case bounded =>
    dsimp only
    omega
  case issued =>
    dsimp only
    rw [hlength, List.range_succ, List.map_append, ← h.issued, hd.index, h.nextToken, h.nextMarket]
    rfl
  case nextToken =>
    dsimp only
    rw [hlength, hd.nextToken, hnext]
  case nextMarket =>
    dsimp only
    rw [hlength, hd.nextMarket, h.nextMarket, ofNat_succ, Nat.add_assoc]
  case tokens =>
    intro i t hi
    dsimp only at hi ⊢
    rw [hd.tokens, FinMap.get_insert] at hi
    rw [hlength]
    split at hi
    · rename_i heq
      rw [← heq, hd.index, hnext]
    · exact Nat.le_succ_of_le (h.tokens i t hi)
  case markets =>
    intro i m hi
    dsimp only at hi ⊢
    rw [hmarkets, FinMap.get_insert] at hi
    split at hi
    · rename_i heq
      rw [← heq]
      exact hnew
    · exact hold (h.markets i m hi)
  case books =>
    intro i b hi
    dsimp only at hi ⊢
    rw [hd.orderbooks, FinMap.get_insert] at hi
    split at hi
    · rename_i heq
      rw [← heq]
      exact hnew
    · exact hold (h.books i b hi)
  case balances =>
    intro a k b hb
    dsimp only at hb ⊢
    rw [hlength]
    by_cases hk : token.index = k
    · rw [← hk, hd.index, hnext]
    · rw [hothers a k hk] at hb
      exact Nat.le_succ_of_le (h.balances a k b hb)

theorem Counted.step {call : SpotTokenDeployParams × AccountAddress} (h : d.Counted)
    (hun : d.Unwrapped) (hstep : step o call d = .ok d') : d'.Counted := by
  obtain ⟨⟨r, s'⟩, hret, hstep⟩ := bind_inv hstep
  rcases SpotEngineState.deployTokenIn_cases hret with ⟨⟨e, rfl⟩, rfl⟩ | ⟨token, rfl, hd⟩
  · obtain rfl := pure_inv hstep
    exact h
  · obtain rfl := pure_inv hstep
    exact h.deploys hun hd

/-- **Run.** -/
theorem Reachable.counted (h : d.Reachable o) : d.Counted :=
  h.invariant counted_start fun _ _ _ hd hun hstep => hd.step hun hstep

/-- A deployment is sound exactly when the counter has not wrapped and the allocations stay
within the maximum supply. -/
theorem Counted.sound_iff_granted (h : d.Counted)
    (hd : d.engine.Deploys o params deployer token s') :
    d.Sound params token s' ↔
      d.Unwrapped ∧ granted ∅ (params.allocations deployer) ≤ params.maxSupply.toRat := by
  constructor
  · intro hsound
    have hun : d.Unwrapped := by
      unfold Unwrapped
      rw [← hd.index]
      exact hsound.not_usdc
    exact ⟨hun, (h.allocated hun hd).2 ▸ hsound.supply⟩
  · rintro ⟨hun, hgranted⟩
    have hnext := (h.next_toNat hun).2
    have hothers := (h.allocated hun hd).1
    obtain ⟨market, hmarkets⟩ := hd.markets
    have hfree : ∀ {i : SpotMarketId}, (∃ p ∈ d.issued, p.2 = i) → d.engine.nextMarketId ≠ i :=
      fun ⟨p, hp, hi⟩ heq => h.market_new hun hp (hi.trans heq.symm)
    refine {
      not_usdc := hd.index ▸ hun
      index_new := fun p hp => hd.index ▸ h.index_new hun hp
      market_new := fun p hp => h.market_new hun hp
      tokens_kept := fun i t hi => ?_
      markets_kept := fun i m hi => ?_
      books_kept := fun i b hi => ?_
      balances_kept := fun a k b hb => ?_
      supply := (h.allocated hun hd).2.trans_le hgranted }
    · have hne : token.index ≠ i := by
        intro heq
        have hle := h.tokens i t hi
        rw [← heq, hd.index] at hle
        omega
      rw [hd.tokens, FinMap.get_insert_ne _ _ hne, hi]
    · rw [hmarkets, FinMap.get_insert_ne _ _ (hfree (h.markets i m hi)), hi]
    · rw [hd.orderbooks, FinMap.get_insert_ne _ _ (hfree (h.books i b hi)), hi]
    · have hne : token.index ≠ k := by
        intro heq
        have hle := h.balances a k b hb
        rw [← heq, hd.index] at hle
        omega
      rw [hothers a k hne, hb]

/-- **Deployment.** After any run of calls, a call that succeeds is sound exactly when the token
counter has not wrapped and the allocations stay within the maximum supply. The ids issued are the
first `n` of the counters (`Counted`), so one is new just while none has wrapped; supply is minted
by the allocations alone. -/
theorem Reachable.deployment_sound_iff (h : d.Reachable o)
    (hret : d.engine.deployTokenIn o params deployer = .ok (.ok token, s')) :
    d.Sound params token s' ↔
      d.Unwrapped ∧ granted ∅ (params.allocations deployer) ≤ params.maxSupply.toRat := by
  rcases SpotEngineState.deployTokenIn_cases hret with ⟨⟨e, he⟩, -⟩ | ⟨t, ht, hd⟩
  · cases he
  · obtain rfl := Except.ok.inj ht
    exact h.counted.sound_iff_granted hd

/-- A token whose maximum supply is one hundred. -/
def hundred (genesisAllocations : List (AccountAddress × Decimal)) : SpotTokenDeployParams where
  symbol := "TEST"
  weiDecimals := 8
  szDecimals := 2
  maxSupply := ⟨10000000000, 8⟩
  genesisAllocations

/-- Forty of it to one account and sixty to another. -/
def shares : SpotTokenDeployParams := hundred [(1, ⟨4000000000, 8⟩), (2, ⟨6000000000, 8⟩)]

/-- A token is shared out soundly, after one that went to its deployer. -/
def SharesSoundly (o : Overflow) : Prop :=
  ∃ (d : Deployments) (token : SpotToken) (s' : SpotEngineState), d.Reachable o ∧
    d.issued.length = 1 ∧ d.engine.deployTokenIn o shares 7 = .ok (.ok token, s') ∧
    d.Sound shares token s'

/-- In either build. -/
theorem sound_shares : SharesSoundly .trap ∧ SharesSoundly .wrap := by
  have hbuild : ∀ o, SharesSoundly o := by
    intro o
    obtain ⟨⟨d, r, s'⟩, hrun, htest⟩ := Exec.exists_of_test
      (x := do
        let d ← step o (hundred [], 7) start
        let (r, s') ← d.engine.deployTokenIn o shares 7
        return (d, r, s'))
      (p := fun x => x.1.engine.nextTokenIndex = 2 ∧ x.1.issued.length = 1 ∧ x.2.1.isOk = true)
      (by cases o <;> decide +kernel)
    obtain ⟨d₁, hstep, hrun⟩ := bind_inv hrun
    obtain ⟨⟨r₁, s₁⟩, hret, hrun⟩ := bind_inv hrun
    cases pure_inv hrun
    obtain ⟨hnext, hissued, hok⟩ := of_decide_eq_true htest
    have hstart : start.Unwrapped := (by decide : (1 : UInt8) ≠ 0)
    have hreach : d.Reachable o := Run.Reaches.refl.tail _ hstart hstep
    cases r with
    | error e => cases hok
    | ok token =>
      refine ⟨d, token, s', hreach, hissued, hret,
        (Reachable.deployment_sound_iff hreach hret).mpr ⟨?_, ?_⟩⟩
      · unfold Unwrapped
        rw [hnext]
        decide
      · show granted ∅ [(1, ⟨4000000000, 8⟩), (2, ⟨6000000000, 8⟩)] ≤ _
        have hne : (1 : AccountAddress) ≠ 2 := by decide
        norm_num [shares, hundred, granted, FinMap.get_insert, Decimal.toRat, hne]
  exact ⟨hbuild .trap, hbuild .wrap⟩

/-- Allocations of the whole supply to each of two accounts. -/
def twice : SpotTokenDeployParams := hundred [(1, ⟨10000000000, 8⟩), (2, ⟨10000000000, 8⟩)]

/-- Nothing holds them back. -/
theorem double_grant : ∃ token s',
    start.engine.deployTokenIn .trap twice 7 = .ok (.ok token, s') ∧
    s'.unifiedState.balanceTotal token.index = 200 ∧
    ¬ start.Sound twice token s' := by
  obtain ⟨⟨r, s'⟩, hret, hok⟩ := Exec.exists_of_test
    (x := start.engine.deployTokenIn .trap twice 7)
    (p := fun x => x.1.isOk) (by decide +kernel)
  rcases SpotEngineState.deployTokenIn_cases hret with ⟨⟨e, rfl⟩, -⟩ | ⟨token, rfl, hd⟩
  · cases hok
  have htotal : s'.unifiedState.balanceTotal token.index = 200 := by
    have hun : start.Unwrapped := by
      show (1 : UInt8) ≠ 0
      decide
    rw [(counted_start.allocated hun hd).2]
    show granted ∅ [(1, ⟨10000000000, 8⟩), (2, ⟨10000000000, 8⟩)] = 200
    have hne : (1 : AccountAddress) ≠ 2 := by decide
    norm_num [granted, FinMap.get_insert, Decimal.toRat, hne]
  refine ⟨token, s', hret, htotal, fun hsound => ?_⟩
  have hle := hsound.supply
  rw [htotal] at hle
  norm_num [twice, hundred, Decimal.toRat] at hle

end Deployments

end Hypercore
