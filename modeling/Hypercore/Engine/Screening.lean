import Hypercore.Engine.Acts
import Hypercore.Engine.LiquidationValue
/-!
# Hypercore.Engine.Screening

What the two-phase search for liquidatable accounts returns.

The pre-screen decides which candidates the precise check sees, by another formula: the
entry price is rounded, the comparison is strict, and an account is looked at one position
at a time. What it passes is confirmed precisely, so nothing wrong is returned; what it
holds back is never looked at. The search is therefore exact if and only if the pre-screen
holds nothing back.
-/

namespace Hypercore

open Exec Int128

namespace Decimal

/-- Raw value on a scale of `k` decimal places, truncated. -/
def rawAt (d : Decimal) (k : Nat) : Int :=
  if d.decimals ≤ k then d.value * 10 ^ (k - d.decimals)
  else d.value.tdiv (10 ^ (d.decimals - k))

theorem toDecimals_rawAt {d r : Decimal} {k : Nat} (h : d.toDecimals k = .ok r) :
    r.value = d.rawAt k := by
  unfold rawAt
  rcases Nat.lt_trichotomy k d.decimals with hk | rfl | hk
  · rw [if_neg (by omega), ((toDecimals_down hk).mp h).2]
  · rw [toDecimals_self] at h
    cases h
    simp
  · rw [if_pos (by omega), ((toDecimals_up hk).mp h).2.2]

end Decimal

namespace Engine

open EngineState

/-! ### The precise checks -/

/-- The positions of an account that have a market. -/
def held (ord : HashOrder) (s : EngineState) (a : AccountAddress) : List (Position × Market) :=
  (ord.visit (s.getAllPositions a)).filterMap fun (marketId, p) =>
    (s.getMarket marketId).map fun m => (p, m)

/-- The precise check of one position holds. -/
def Liquidatable (s : EngineState) (c : Candidate) : Prop :=
  ∃ account, s.getAccount c.account = some account ∧
    RiskEngine.isLiquidatable account c.position c.market = .ok true

/-- The precise check of an account over all its positions holds. -/
def AccountLiquidatable (ord : HashOrder) (s : EngineState) (a : AccountAddress) : Prop :=
  ∃ account, s.getAccount a = some account ∧
    RiskEngine.isAccountLiquidatable account (held ord s a) = .ok true

/-- A position and its market, as the state has them. -/
structure Recorded (s : EngineState) (c : Candidate) : Prop where
  position : s.getPosition c.account c.marketId = some c.position
  market : s.getMarket c.marketId = some c.market

/-- An open position of least unrealized PnL. -/
def Worst (s : EngineState) (a : AccountAddress) (m : MarketId) : Prop :=
  ∃ c, Recorded s c ∧ c.account = a ∧ c.marketId = m ∧ c.position.isEmpty = false ∧
    ∃ pnl, RiskEngine.unrealized (c.position, c.market) = .ok pnl ∧
      ∀ d, Recorded s d → d.account = a → d.position.isEmpty = false →
        ∃ pnl', RiskEngine.unrealized (d.position, d.market) = .ok pnl' ∧ pnl.value ≤ pnl'.value

/-- A list of pairs has the liquidatable positions of isolated accounts, one worst
position for each liquidatable cross-margin account, and nothing else. -/
structure Exact (ord : HashOrder) (s : EngineState) (pairs : List (AccountAddress × MarketId)) :
    Prop where
  nodup : pairs.Nodup
  isolated : ∀ a m, s.getMarginMode a = .isolated →
    ((a, m) ∈ pairs ↔ ∃ c, Recorded s c ∧ c.account = a ∧ c.marketId = m ∧ Liquidatable s c)
  cross : ∀ a, s.getMarginMode a = .cross → AccountLiquidatable ord s a →
    ∃ worst, pairs.filter (·.1 = a) = [(a, worst)] ∧ Worst s a worst
  nothing : ∀ a, s.getMarginMode a = .cross → ¬ AccountLiquidatable ord s a →
    pairs.filter (·.1 = a) = []

/-! ### The pre-screen in numbers -/

/-- The estimate of the pre-screen, on a scale of 8 decimal places: balance and PnL
against the rounded entry price lie strictly below the maintenance margin. Products wrap. -/
def Prescreened (balance : Int) (p : Position) (market : Market) : Prop :=
  let mark := market.state.markPrice.rawAt 8
  let entry := (p.entryNotional.value * 10 ^ 8).tdiv |p.size.value|
  balance * 10 ^ 2 + (wrappingMul (mark - entry) p.size.value).tdiv (10 ^ 8) <
    (wrappingMul |(wrappingMul mark p.size.value).tdiv (10 ^ 8)|
      (market.config.maintenanceMarginRate.rawAt 8)).tdiv (10 ^ 8)

instance (balance : Int) (p : Position) (market : Market) :
    Decidable (Prescreened balance p market) :=
  inferInstanceAs (Decidable (_ < _))

/-- The pre-screen holds back no liquidatable position of an isolated account, and not all
open positions of a liquidatable cross-margin account. -/
structure PrescreenComplete (ord : HashOrder) (s : EngineState) : Prop where
  isolated : ∀ c account, Recorded s c → s.getMarginMode c.account = .isolated →
    s.getAccount c.account = some account → Liquidatable s c →
    Prescreened account.balance c.position c.market
  cross : ∀ a account, s.getMarginMode a = .cross → s.getAccount a = some account →
    AccountLiquidatable ord s a →
    ∃ c, Recorded s c ∧ c.account = a ∧ c.position.isEmpty = false ∧
      Prescreened account.balance c.position c.market

/-- The rounded entry price of an open position. -/
theorem entryPrice_eq {p : Position} {price : Option Decimal} (hp : p.WF)
    (hz : p.size.value ≠ 0) (h : p.entryPrice = .ok price) :
    price = some ⟨(p.entryNotional.value * 10 ^ 8).tdiv |p.size.value|, 8⟩ := by
  unfold Position.entryPrice at h
  rw [if_neg (by simpa using hz)] at h
  obtain ⟨size, hsize, h⟩ := bind_inv h
  obtain ⟨q, hq, h⟩ := bind_inv h
  obtain rfl := pure_inv h
  obtain ⟨-, rfl⟩ := Decimal.abs_eq_ok.mp hsize
  obtain ⟨-, -, -, -, rfl⟩ := Decimal.div_eq_ok.mp hq
  rw [hp.size, hp.entry]

variable {b : Bool} {a : AccountAddress}

theorem batchLiquidationCheck_iff {mark entry size balance maint : Int} (hz : size ≠ 0)
    (h : batchLiquidationCheck mark entry size balance maint = .ok b) :
    b = true ↔ balance + (wrappingMul (mark - entry) size).tdiv (10 ^ 8) <
      (wrappingMul |(wrappingMul mark size).tdiv (10 ^ 8)| maint).tdiv (10 ^ 8) := by
  unfold batchLiquidationCheck at h
  dsimp only at h
  rw [if_neg hz] at h
  obtain ⟨move, hmove, h⟩ := bind_inv h
  obtain ⟨equity, hequity, h⟩ := bind_inv h
  obtain ⟨notional, hnotional, h⟩ := bind_inv h
  obtain ⟨-, rfl⟩ := i128_eq_ok.mp hmove
  obtain ⟨-, rfl⟩ := i128_eq_ok.mp hequity
  obtain ⟨-, rfl⟩ := i128_eq_ok.mp hnotional
  rw [← pure_inv h, decide_eq_true_iff]

variable {account : AccountState} {pairs : List (AccountAddress × MarketId)}

/-- **The pre-screen** of an open position is its estimate. -/
theorem flagged_iff {s : EngineState} {c : Candidate} (hp : c.position.WF)
    (hopen : c.position.isEmpty = false) (ha : s.getAccount c.account = some account)
    (h : flagged s c = .ok b) :
    b = true ↔ Prescreened account.balance c.position c.market := by
  have hz : c.position.size.value ≠ 0 := by simpa [Position.isEmpty] using hopen
  obtain ⟨mark, hmark, h⟩ := bind_inv h
  obtain ⟨price, hprice, h⟩ := bind_inv h
  obtain ⟨entry, hentry, h⟩ := bind_inv h
  obtain ⟨size, hsize, h⟩ := bind_inv h
  obtain ⟨balance, hbalance, h⟩ := bind_inv h
  obtain ⟨maint, hmaint, h⟩ := bind_inv h
  have hsize' : size.value = c.position.size.value := by
    rw [← hp.size, Decimal.toDecimals_self] at hsize
    cases hsize
    rfl
  have hentry' : entry.value =
      (c.position.entryNotional.value * 10 ^ 8).tdiv |c.position.size.value| := by
    rw [entryPrice_eq hp hz hprice, Option.getD_some] at hentry
    cases hentry
    rfl
  have hbalance' : balance.value = account.balance * 10 ^ 2 := by
    simp only [ha] at hbalance
    exact Decimal.toDecimals_rawAt hbalance
  rw [batchLiquidationCheck_iff (hsize' ▸ hz) h, Decimal.toDecimals_rawAt hmark,
    Decimal.toDecimals_rawAt hmaint, hentry', hsize', hbalance']
  rfl

/-! ### Candidates -/

theorem mem_candidates {ord : HashOrder} {s : EngineState} {c : Candidate} :
    c ∈ candidates ord s ↔ Recorded s c ∧ c.position.isEmpty = false ∧
      ∃ account, s.getAccount c.account = some account := by
  unfold candidates
  simp only [List.mem_flatMap, List.mem_filterMap, HashOrder.mem_visit, Prod.exists]
  constructor
  · rintro ⟨a, account, hacc, m, p, hmp, hc⟩
    split at hc
    · exact absurd hc (by simp)
    · rename_i hopen
      obtain ⟨market, hm, rfl⟩ := Option.map_eq_some_iff.mp hc
      exact ⟨⟨mem_getAllPositions.mp hmp, hm⟩, by simpa using hopen, account,
        FinMap.mem_toList.mp hacc⟩
  · rintro ⟨⟨hp, hm⟩, hopen, account, hacc⟩
    refine ⟨c.account, account, FinMap.mem_toList.mpr hacc, c.marketId, c.position,
      mem_getAllPositions.mpr hp, ?_⟩
    rw [if_neg (by simp [hopen]), hm]
    rfl

theorem mem_held {ord : HashOrder} {s : EngineState} {x : Position × Market} :
    x ∈ held ord s a ↔ ∃ c, Recorded s c ∧ c.account = a ∧ (c.position, c.market) = x := by
  unfold held getAllPositions
  simp only [List.mem_filterMap, HashOrder.mem_visit, FinMap.mem_toList, Prod.exists]
  constructor
  · rintro ⟨m, p, hp, hx⟩
    obtain ⟨market, hm, rfl⟩ := Option.map_eq_some_iff.mp hx
    refine ⟨⟨a, m, p, market⟩, ⟨?_, hm⟩, rfl, rfl⟩
    unfold getPosition
    cases hps : s.positions[a]? <;> simp_all
  · rintro ⟨c, ⟨hp, hm⟩, rfl, rfl⟩
    refine ⟨c.marketId, c.position, ?_, by rw [hm]; rfl⟩
    unfold getPosition at hp
    cases hps : s.positions[c.account]? <;> simp_all

/-! ### The worst position -/

theorem minByKey_spec {α : Type} {l : List (α × Int)} {a : α} (h : minByKey l = some a) :
    ∃ k, (a, k) ∈ l ∧ ∀ q ∈ l, k ≤ q.2 := by
  have hgo : ∀ (l : List (α × Int)) (b : α) (k : Int), ∃ k',
      (minByKey.go b k l, k') ∈ (b, k) :: l ∧ ∀ q ∈ (b, k) :: l, k' ≤ q.2 := by
    intro l
    induction l with
    | nil => exact fun b k => ⟨k, .head _, by simp⟩
    | cons q l ih =>
      intro b k
      obtain ⟨b₁, k₁⟩ := q
      unfold minByKey.go
      split
      · obtain ⟨k', hmem, hle⟩ := ih b₁ k₁
        refine ⟨k', .tail _ hmem, fun q hq => ?_⟩
        rcases List.mem_cons.mp hq with rfl | hq
        · have := hle _ (.head _)
          dsimp only at this ⊢
          omega
        · exact hle q hq
      · obtain ⟨k', hmem, hle⟩ := ih b k
        refine ⟨k', ?_, fun q hq => ?_⟩
        · rcases List.mem_cons.mp hmem with hmem | hmem
          · rw [hmem]
            exact .head _
          · exact .tail _ (.tail _ hmem)
        · rcases List.mem_cons.mp hq with rfl | hq
          · exact hle _ (.head _)
          · rcases List.mem_cons.mp hq with rfl | hq
            · have := hle _ (.head _)
              dsimp only at this ⊢
              omega
            · exact hle q (.tail _ hq)
  cases l with
  | nil => cases h
  | cons q l =>
    obtain rfl := Option.some.inj h
    exact hgo l q.1 q.2

theorem minByKey_eq_none {α : Type} {l : List (α × Int)} (h : minByKey l = none) : l = [] := by
  cases l with
  | nil => rfl
  | cons q l => cases h

/-- **The worst position** of an account that has an open one. -/
theorem findWorstPosition_spec {ord : HashOrder} {s : EngineState} {worst : MarketId}
    (hfiled : MarketsFiled s)
    (hopen : ∃ c, Recorded s c ∧ c.account = a ∧ c.position.isEmpty = false)
    (h : findWorstPosition (held ord s a) = .ok worst) : Worst s a worst := by
  obtain ⟨keyed, hkeyed, h⟩ := bind_inv h
  obtain rfl := pure_inv h
  obtain ⟨hfrom, hto⟩ := mapM_mem hkeyed
  have hmem : ∀ d, Recorded s d → d.account = a → d.position.isEmpty = false →
      ∃ pnl, RiskEngine.unrealized (d.position, d.market) = .ok pnl ∧
        (d.market.id, pnl.value) ∈ keyed := by
    intro d hd hda hdopen
    obtain ⟨y, hy, hyd⟩ := hto (d.position, d.market)
      (List.mem_filter.mpr ⟨mem_held.mpr ⟨d, hd, hda, rfl⟩, by simp [hdopen]⟩)
    obtain ⟨pnl, hpnl, hyd⟩ := bind_inv hyd
    obtain rfl := pure_inv hyd
    exact ⟨pnl, hpnl, hy⟩
  cases hmin : minByKey keyed with
  | none =>
    obtain ⟨c, hc, hca, hcopen⟩ := hopen
    obtain ⟨pnl, -, hin⟩ := hmem c hc hca hcopen
    rw [minByKey_eq_none hmin] at hin
    exact absurd hin List.not_mem_nil
  | some worst =>
    obtain ⟨k, hk, hle⟩ := minByKey_spec hmin
    obtain ⟨⟨p, market⟩, hx, hxk⟩ := hfrom _ hk
    obtain ⟨hx, hxopen⟩ := List.mem_filter.mp hx
    obtain ⟨c, hc, hca, hcx⟩ := mem_held.mp hx
    obtain ⟨rfl, rfl⟩ := Prod.mk.inj hcx
    obtain ⟨pnl, hpnl, hxk⟩ := bind_inv hxk
    obtain ⟨rfl, rfl⟩ := pair_inv hxk
    refine ⟨c, hc, hca, (hfiled _ _ hc.market).symm, by simpa using hxopen, pnl, hpnl, ?_⟩
    intro d hd hda hdopen
    obtain ⟨pnl', hpnl', hin⟩ := hmem d hd hda hdopen
    exact ⟨pnl', hpnl', hle _ hin⟩

/-! ### The search -/

/-- What has been found among the candidates `done`, and which cross-margin accounts are
confirmed. -/
structure Screened (ord : HashOrder) (s : EngineState) (done : List Candidate)
    (acc : List (AccountAddress × MarketId) × List AccountAddress) : Prop where
  isolated : ∀ a m, s.getMarginMode a = .isolated → ((a, m) ∈ acc.1 ↔
    ∃ c ∈ done, c.account = a ∧ c.marketId = m ∧ flagged s c = .ok true ∧ Liquidatable s c)
  confirmed : ∀ a, s.getMarginMode a = .cross → (a ∈ acc.2 ↔
    ∃ c ∈ done, c.account = a ∧ flagged s c = .ok true ∧ AccountLiquidatable ord s a)
  cross : ∀ a, s.getMarginMode a = .cross → a ∈ acc.2 → ∃ worst,
    findWorstPosition (held ord s a) = .ok worst ∧ acc.1.filter (·.1 = a) = [(a, worst)]
  nothing : ∀ a, s.getMarginMode a = .cross → a ∉ acc.2 → acc.1.filter (·.1 = a) = []
  screened : ∀ c ∈ done, ∃ b, flagged s c = .ok b
  checked : ∀ c ∈ done, s.getMarginMode c.account = .cross → flagged s c = .ok true →
    ∀ account, s.getAccount c.account = some account →
      ∃ q, RiskEngine.isAccountLiquidatable account (held ord s c.account) = .ok q

section Confirm

variable {ord : HashOrder} {s : EngineState} {done : List Candidate} {c : Candidate}
  {acc acc' : List (AccountAddress × MarketId) × List AccountAddress}

theorem forall_mem_snoc {α : Type} {P : α → Prop} {l : List α} {a : α} (h : ∀ x ∈ l, P x)
    (ha : P a) : ∀ x ∈ l ++ [a], P x := by
  intro x hx
  rcases List.mem_append.mp hx with hx | hx
  · exact h x hx
  · rw [List.mem_singleton.mp hx]
    exact ha

theorem exists_mem_snoc {α : Type} {P : α → Prop} {l : List α} {a : α} :
    (∃ x ∈ l ++ [a], P x) ↔ (∃ x ∈ l, P x) ∨ P a := by
  simp only [List.mem_append, List.mem_singleton]
  constructor
  · rintro ⟨x, hx | rfl, h⟩
    · exact .inl ⟨x, hx, h⟩
    · exact .inr h
  · rintro (⟨x, hx, h⟩ | h)
    · exact ⟨x, .inl hx, h⟩
    · exact ⟨a, .inr rfl, h⟩

/-- A candidate that adds nothing. -/
theorem Screened.skip (h : Screened ord s done acc) (hb : ∃ b, flagged s c = .ok b)
    (hiso : s.getMarginMode c.account = .isolated → flagged s c = .ok true →
      ¬ Liquidatable s c)
    (hcross : s.getMarginMode c.account = .cross → flagged s c = .ok true →
      AccountLiquidatable ord s c.account → c.account ∈ acc.2)
    (hcheck : s.getMarginMode c.account = .cross → flagged s c = .ok true →
      ∀ account, s.getAccount c.account = some account →
        ∃ q, RiskEngine.isAccountLiquidatable account (held ord s c.account) = .ok q) :
    Screened ord s (done ++ [c]) acc where
  isolated a m hmode := by
    rw [h.isolated a m hmode, exists_mem_snoc]
    refine ⟨.inl, ?_⟩
    rintro (hd | ⟨rfl, -, hf, hl⟩)
    · exact hd
    · exact absurd hl (hiso hmode hf)
  confirmed a hmode := by
    rw [exists_mem_snoc, ← h.confirmed a hmode]
    refine ⟨.inl, ?_⟩
    rintro (hd | ⟨rfl, hf, hl⟩)
    · exact hd
    · exact hcross hmode hf hl
  cross := h.cross
  nothing := h.nothing
  screened := forall_mem_snoc h.screened hb
  checked := forall_mem_snoc h.checked hcheck

/-- A liquidatable position of an isolated account. -/
theorem Screened.addIsolated (h : Screened ord s done acc)
    (hmode : s.getMarginMode c.account = .isolated) (hf : flagged s c = .ok true)
    (hl : Liquidatable s c) :
    Screened ord s (done ++ [c]) (acc.1 ++ [(c.account, c.marketId)], acc.2) where
  isolated a m ha := by
    rw [exists_mem_snoc, ← h.isolated a m ha, List.mem_append, List.mem_singleton]
    refine or_congr_right ⟨fun heq => ?_, fun ⟨h1, h2, _⟩ => by rw [h1, h2]⟩
    obtain ⟨rfl, rfl⟩ := Prod.mk.inj heq
    exact ⟨rfl, rfl, hf, hl⟩
  confirmed a ha := by
    rw [exists_mem_snoc, ← h.confirmed a ha]
    refine ⟨.inl, ?_⟩
    rintro (hd | ⟨rfl, -⟩)
    · exact hd
    · rw [hmode] at ha
      cases ha
  cross a ha hin := by
    obtain ⟨worst, hworst, hfilter⟩ := h.cross a ha hin
    refine ⟨worst, hworst, ?_⟩
    have hne : c.account ≠ a := by
      rintro rfl
      rw [hmode] at ha
      cases ha
    simp [List.filter_append, hfilter, hne]
  nothing a ha hin := by
    have hne : c.account ≠ a := by
      rintro rfl
      rw [hmode] at ha
      cases ha
    simp [List.filter_append, h.nothing a ha hin, hne]
  screened := forall_mem_snoc h.screened ⟨true, hf⟩
  checked := forall_mem_snoc h.checked fun hm => by
    rw [hmode] at hm
    cases hm

/-- The worst position of a liquidatable cross-margin account. -/
theorem Screened.addCross {worst : MarketId} (h : Screened ord s done acc)
    (hmode : s.getMarginMode c.account = .cross) (hf : flagged s c = .ok true)
    (hl : AccountLiquidatable ord s c.account) (hnew : c.account ∉ acc.2)
    (hworst : findWorstPosition (held ord s c.account) = .ok worst) :
    Screened ord s (done ++ [c])
      (acc.1 ++ [(c.account, worst)], acc.2 ++ [c.account]) where
  isolated a m ha := by
    have hne : c.account ≠ a := by
      rintro rfl
      rw [hmode] at ha
      cases ha
    rw [exists_mem_snoc, ← h.isolated a m ha, List.mem_append, List.mem_singleton]
    refine or_congr_right ⟨fun heq => ?_, fun ⟨h1, _⟩ => absurd h1 hne⟩
    exact absurd (Prod.mk.inj heq).1.symm hne
  confirmed a ha := by
    rw [exists_mem_snoc, ← h.confirmed a ha, List.mem_append, List.mem_singleton]
    refine or_congr_right ⟨?_, fun ⟨h1, _⟩ => h1.symm⟩
    rintro rfl
    exact ⟨rfl, hf, hl⟩
  cross a ha hin := by
    rcases List.mem_append.mp hin with hin | hin
    · have hne : c.account ≠ a := by
        rintro rfl
        exact hnew hin
      obtain ⟨w, hw, hfilter⟩ := h.cross a ha hin
      exact ⟨w, hw, by simp [List.filter_append, hfilter, hne]⟩
    · obtain rfl := List.mem_singleton.mp hin
      exact ⟨worst, hworst, by simp [List.filter_append, h.nothing _ ha hnew]⟩
  nothing a ha hin := by
    rw [List.mem_append, List.mem_singleton, not_or] at hin
    simp [List.filter_append, h.nothing a ha hin.1, Ne.symm hin.2]
  screened := forall_mem_snoc h.screened ⟨true, hf⟩
  checked := forall_mem_snoc h.checked fun _ _ account hacc => by
    obtain ⟨account', hacc', hq⟩ := hl
    obtain rfl := Option.some.inj (hacc.symm.trans hacc')
    exact ⟨true, hq⟩

/-- **Step lemma.** -/
theorem Screened.confirm (h : Screened ord s done acc)
    (hc : confirm ord s acc c = .ok acc') : Screened ord s (done ++ [c]) acc' := by
  obtain ⟨found, confirmed⟩ := acc
  unfold Engine.confirm at hc
  dsimp only at hc
  obtain ⟨b, hb, hc⟩ := bind_inv hc
  cases b with
  | false =>
    rw [if_pos (by simp)] at hc
    obtain rfl := pure_inv hc
    have hnot : flagged s c ≠ .ok true := by
      rw [hb]
      exact fun h => absurd (Except.ok.inj h) (by simp)
    exact h.skip ⟨_, hb⟩ (fun _ hf => absurd hf hnot) (fun _ hf => absurd hf hnot)
      (fun _ hf => absurd hf hnot)
  | true =>
    rw [if_neg (by simp)] at hc
    cases hmode : s.getMarginMode c.account <;> cases hacc : s.getAccount c.account <;>
      simp only [hmode, hacc] at hc
    case isolated.none =>
      obtain rfl := pure_inv hc
      refine h.skip ⟨_, hb⟩ (fun _ _ ⟨account, ha, _⟩ => ?_) (fun hm => ?_) (fun hm => ?_)
      · rw [hacc] at ha
        cases ha
      all_goals
        rw [hmode] at hm
        cases hm
    case isolated.some account =>
      obtain ⟨q, hq, hc⟩ := bind_inv hc
      cases q with
      | true =>
        obtain rfl := pure_inv hc
        exact h.addIsolated hmode hb ⟨account, hacc, hq⟩
      | false =>
        obtain rfl := pure_inv hc
        refine h.skip ⟨_, hb⟩ (fun _ _ ⟨account', ha, hl⟩ => ?_) (fun hm => ?_) (fun hm => ?_)
        · obtain rfl := Option.some.inj (hacc.symm.trans ha)
          exact absurd (ok_unique hq hl) (by simp)
        all_goals
          rw [hmode] at hm
          cases hm
    case cross.none =>
      have hskip : Screened ord s (done ++ [c]) (found, confirmed) := by
        refine h.skip ⟨_, hb⟩ (fun hm => ?_) (fun _ _ ⟨account, ha, _⟩ => ?_)
          (fun _ _ account ha => ?_)
        · rw [hmode] at hm
          cases hm
        all_goals
          rw [hacc] at ha
          cases ha
      split at hc <;> obtain rfl := pure_inv hc <;> exact hskip
    case cross.some account =>
      split at hc
      · rename_i hin
        obtain rfl := pure_inv hc
        refine h.skip ⟨_, hb⟩ (fun hm => ?_) (fun _ _ _ => hin) (fun _ _ account' ha => ?_)
        · rw [hmode] at hm
          cases hm
        · obtain ⟨_, -, -, -, account₁, ha₁, hq⟩ := (h.confirmed _ hmode).mp hin
          obtain rfl := Option.some.inj (ha.symm.trans ha₁)
          exact ⟨true, hq⟩
      · rename_i hnew
        obtain ⟨q, hq, hc⟩ := bind_inv hc
        cases q with
        | true =>
          obtain ⟨worst, hworst, hc⟩ := bind_inv hc
          obtain rfl := pure_inv hc
          exact h.addCross hmode hb ⟨account, hacc, hq⟩ hnew hworst
        | false =>
          obtain rfl := pure_inv hc
          refine h.skip ⟨_, hb⟩ (fun hm => ?_) (fun _ _ ⟨account', ha, hl⟩ => ?_)
            (fun _ _ account' ha => ?_)
          · rw [hmode] at hm
            cases hm
          · obtain rfl := Option.some.inj (hacc.symm.trans ha)
            exact absurd (ok_unique hq hl) (by simp)
          · obtain rfl := Option.some.inj (hacc.symm.trans ha)
            exact ⟨false, hq⟩

end Confirm

/-- **Run lemma.** The search screens all candidates. -/
theorem findUnderwaterAccounts_screened {ord : HashOrder} {e : Engine}
    (h : findUnderwaterAccounts ord e = .ok pairs) :
    ∃ acc, Screened ord e.state (candidates ord e.state) acc ∧ pairs.Perm acc.1 := by
  obtain ⟨⟨found, confirmed⟩, hfold, h⟩ := bind_inv h
  obtain rfl := pure_inv h
  have hall : ∀ (todo done : List Candidate) acc, Screened ord e.state done acc →
      todo.foldlM (Engine.confirm ord e.state) acc = .ok (found, confirmed) →
      Screened ord e.state (done ++ todo) (found, confirmed) := by
    intro todo
    induction todo with
    | nil =>
      intro done acc hs hfold
      obtain rfl := foldlM_nil_eq_ok.mp hfold
      rwa [List.append_nil]
    | cons c todo ih =>
      intro done acc hs hfold
      obtain ⟨acc₁, hc, hfold⟩ := foldlM_cons_eq_ok.mp hfold
      have := ih (done ++ [c]) acc₁ (hs.confirm hc) hfold
      rwa [List.append_assoc, List.singleton_append] at this
  refine ⟨_, hall _ [] _ ⟨?_, ?_, ?_, ?_, ?_, ?_⟩ hfold, List.perm_insertionSort _ _⟩ <;> simp

/-- A position found liquidatable is open. -/
theorem Liquidatable.open {s : EngineState} {c : Candidate} (h : Liquidatable s c) :
    c.position.isEmpty = false := by
  obtain ⟨account, -, h⟩ := h
  unfold RiskEngine.isLiquidatable at h
  split at h
  · exact absurd (pure_inv h) (by simp)
  · rename_i hopen
    simpa using hopen

/-- A candidate that has been screened is flagged exactly when its estimate says so. -/
theorem Screened.flagged_iff {ord : HashOrder} {s : EngineState}
    {acc : List (AccountAddress × MarketId) × List AccountAddress} {c : Candidate}
    (h : Screened ord s (candidates ord s) acc) (hwf : PositionsWF s) (hrec : Recorded s c)
    (hopen : c.position.isEmpty = false) (hacc : s.getAccount c.account = some account) :
    flagged s c = .ok true ↔ Prescreened account.balance c.position c.market := by
  obtain ⟨b, hb⟩ := h.screened c (mem_candidates.mpr ⟨hrec, hopen, account, hacc⟩)
  rw [← Engine.flagged_iff (hwf _ _ _ hrec.position) hopen hacc hb, hb, Except.ok.injEq]

/-- **Exactness of the search.** It returns what the precise checks call for exactly when the
pre-screen holds nothing back. What the pre-screen passes is confirmed precisely (`Screened`), so
only what it holds back can be missing. -/
theorem findUnderwaterAccounts_exact_iff {ord : HashOrder} {e : Engine}
    {pairs : List (AccountAddress × MarketId)} (hr : Reachable e)
    (h : findUnderwaterAccounts ord e = .ok pairs) :
    Exact ord e.state pairs ↔ PrescreenComplete ord e.state := by
  obtain ⟨acc, hs, hperm⟩ := findUnderwaterAccounts_screened h
  have hwf := hr.positionsWF
  have hfilter : ∀ a, (pairs.filter (·.1 = a)).Perm (acc.1.filter (·.1 = a)) :=
    fun a => hperm.filter _
  constructor
  · intro hexact
    refine ⟨fun c account hrec hmode hacc hl => ?_, fun a account hmode hacc hl => ?_⟩
    · have hin := (hexact.isolated _ c.marketId hmode).mpr ⟨c, hrec, rfl, rfl, hl⟩
      obtain ⟨d, hd, hda, hdm, hf, -⟩ := (hs.isolated _ _ hmode).mp (hperm.mem_iff.mp hin)
      obtain ⟨hdrec, -, -⟩ := mem_candidates.mp hd
      -- one candidate for each account and market
      obtain rfl : d = c := by
        obtain ⟨da, dm, dp, dmarket⟩ := d
        obtain ⟨ca, cm, cp, cmarket⟩ := c
        dsimp only at hda hdm
        subst hda hdm
        obtain rfl : dp = cp := Option.some.inj (hdrec.position.symm.trans hrec.position)
        obtain rfl : dmarket = cmarket := Option.some.inj (hdrec.market.symm.trans hrec.market)
        rfl
      exact (hs.flagged_iff hwf hrec hl.open hacc).mp hf
    · obtain ⟨worst, hpairs, -⟩ := hexact.cross a hmode hl
      have hin : a ∈ acc.2 := by
        by_contra hnot
        have hnil := hs.nothing a hmode hnot
        have := (hfilter a).length_eq
        rw [hpairs, hnil] at this
        simp at this
      obtain ⟨c, hc, rfl, hf, -⟩ := (hs.confirmed a hmode).mp hin
      obtain ⟨hrec, hopen, -⟩ := mem_candidates.mp hc
      exact ⟨c, hrec, rfl, hopen, (hs.flagged_iff hwf hrec hopen hacc).mp hf⟩
  · intro hcomplete
    refine ⟨findUnderwaterAccounts_nodup h, fun a m hmode => ?_, fun a hmode hl => ?_,
      fun a hmode hl => ?_⟩
    · rw [hperm.mem_iff, hs.isolated a m hmode]
      constructor
      · rintro ⟨c, hc, hca, hcm, -, hl⟩
        exact ⟨c, (mem_candidates.mp hc).1, hca, hcm, hl⟩
      · rintro ⟨c, hrec, rfl, rfl, hl⟩
        obtain ⟨account, hacc, -⟩ := id hl
        have hpre := hcomplete.isolated c account hrec hmode hacc hl
        exact ⟨c, mem_candidates.mpr ⟨hrec, hl.open, account, hacc⟩, rfl, rfl,
          (hs.flagged_iff hwf hrec hl.open hacc).mpr hpre, hl⟩
    · obtain ⟨account, hacc, -⟩ := id hl
      obtain ⟨c, hrec, rfl, hopen, hpre⟩ := hcomplete.cross a account hmode hacc hl
      have hin : c.account ∈ acc.2 := (hs.confirmed _ hmode).mpr
        ⟨c, mem_candidates.mpr ⟨hrec, hopen, account, hacc⟩, rfl,
          (hs.flagged_iff hwf hrec hopen hacc).mpr hpre, hl⟩
      obtain ⟨worst, hworst, hfound⟩ := hs.cross _ hmode hin
      refine ⟨worst, ?_, findWorstPosition_spec hr.marketsFiled ⟨c, hrec, rfl, hopen⟩ hworst⟩
      have := hfilter c.account
      rwa [hfound, List.perm_singleton] at this
    · have hnot : a ∉ acc.2 := by
        intro hin
        obtain ⟨c, -, -, -, hl'⟩ := (hs.confirmed a hmode).mp hin
        exact hl hl'
      have := hfilter a
      rwa [hs.nothing a hmode hnot, List.perm_nil] at this

/-! ### At the boundary -/

/-- The precise check of the position of an account in a market. -/
def checkPosition (s : EngineState) (a : AccountAddress) (m : MarketId) : Exec Bool :=
  match s.getAccount a, s.getPosition a m, s.getMarket m with
  | some account, some p, some market => RiskEngine.isLiquidatable account p market
  | _, _, _ => return false

theorem liquidatable_of_checkPosition {s : EngineState} {m : MarketId}
    (h : checkPosition s a m = .ok true) :
    ∃ c, Recorded s c ∧ c.account = a ∧ c.marketId = m ∧ Liquidatable s c := by
  unfold checkPosition at h
  split at h
  · rename_i account p market hacc hp hm
    exact ⟨⟨a, m, p, market⟩, ⟨hp, hm⟩, rfl, rfl, account, hacc, h⟩
  · exact absurd (pure_inv h) (by simp)

/-- An engine whose account 1 has `withdrawn` part of the balance behind its position, the
positions found, and the precise check of that position. -/
def screeningRun (withdrawn : Nat) :
    Exec (Engine × List (AccountAddress × MarketId) × Bool) := do
  let e ← btcRun none [.deposit 1 1000000000, .deposit 2 1000000000000,
    .placeOrder 2 (limitOrder .sell .gtc 6500000000000 10000000) 5,
    .placeOrder 1 (limitOrder .buy .gtc 6500000000000 10000000) 6, .withdraw 1 withdrawn]
  let pairs ← findUnderwaterAccounts .sorted e
  let b ← checkPosition e.state 1 0
  return (e, pairs, b)

theorem screeningRun_eq_ok {withdrawn : Nat} {e : Engine}
    (h : screeningRun withdrawn = .ok (e, pairs, b)) :
    Reachable e ∧ findUnderwaterAccounts .sorted e = .ok pairs ∧
      checkPosition e.state 1 0 = .ok b := by
  obtain ⟨e₁, h1, h⟩ := bind_inv h
  obtain ⟨pairs₁, h2, h⟩ := bind_inv h
  obtain ⟨b₁, h3, h⟩ := bind_inv h
  obtain ⟨rfl, rfl, rfl⟩ := by simpa using pure_inv h
  exact ⟨btcRun_reachable h1, h2, h3⟩

/-- A balance of exactly the maintenance margin: liquidatable, and nothing is found. -/
theorem liquidatable_not_found : ∃ e, Reachable e ∧
    findUnderwaterAccounts .sorted e = .ok [] ∧ ¬ Exact .sorted e.state [] := by
  obtain ⟨⟨e, pairs, b⟩, hrun, htest⟩ := exists_of_test (x := screeningRun 834250000)
    (p := fun x => decide (x.2.1 = [] ∧ x.2.2 = true ∧
      x.1.state.getMarginMode 1 = .isolated)) (by decide +kernel)
  obtain ⟨rfl, rfl, hmode⟩ := of_decide_eq_true htest
  obtain ⟨hreach, hfound, hcheck⟩ := screeningRun_eq_ok hrun
  refine ⟨e, hreach, hfound, fun hexact => ?_⟩
  have hin := (hexact.isolated 1 0 hmode).mpr (liquidatable_of_checkPosition hcheck)
  exact absurd hin List.not_mem_nil

/-- The pre-screen lets every liquidatable candidate through. -/
def letsThrough (s : EngineState) : Bool :=
  (candidates .sorted s).all fun c => match s.getAccount c.account with
    | none => true
    | some account => match RiskEngine.isLiquidatable account c.position c.market with
      | .ok true => Prescreened account.balance c.position c.market
      | _ => true

theorem prescreenComplete_of_letsThrough {s : EngineState} (hmode : s.marginMode.toList = [])
    (h : letsThrough s = true) : PrescreenComplete .sorted s where
  isolated c account hrec _ hacc hl := by
    have hc := List.all_eq_true.mp h c (mem_candidates.mpr ⟨hrec, hl.open, account, hacc⟩)
    obtain ⟨account', hacc', hliq⟩ := hl
    obtain rfl := Option.some.inj (hacc.symm.trans hacc')
    simp only [hacc, hliq] at hc
    exact of_decide_eq_true hc
  cross a account ha := by
    -- nobody has chosen a mode, so every account is isolated
    have hnone : s.marginMode[a]? = none := by
      refine Option.eq_none_iff_forall_ne_some.mpr fun mode hm => ?_
      have hin : (a, mode) ∈ s.marginMode.toList := FinMap.mem_toList.mpr hm
      rw [hmode] at hin
      cases hin
    unfold getMarginMode at ha
    rw [hnone] at ha
    cases ha

/-- One micro-USDC less, and the position is found, which is all there is to find. -/
theorem liquidatable_found : ∃ e, Reachable e ∧
    findUnderwaterAccounts .sorted e = .ok [(1, 0)] ∧ Exact .sorted e.state [(1, 0)] := by
  obtain ⟨⟨e, pairs, b⟩, hrun, htest⟩ := exists_of_test (x := screeningRun 834250001)
    (p := fun x => decide (x.2.1 = [(1, 0)] ∧ x.1.state.marginMode.toList = [] ∧
      letsThrough x.1.state = true)) (by decide +kernel)
  obtain ⟨rfl, hmode, hthrough⟩ := of_decide_eq_true htest
  obtain ⟨hreach, hfound, -⟩ := screeningRun_eq_ok hrun
  exact ⟨e, hreach, hfound, (findUnderwaterAccounts_exact_iff hreach hfound).mpr
    (prescreenComplete_of_letsThrough hmode hthrough)⟩

end Engine

end Hypercore
