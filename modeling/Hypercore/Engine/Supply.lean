import Hypercore.Engine.Balances
import Hypercore.Primitives.Supply
/-!
# Hypercore.Engine.Supply

The perp engine moves USDC only.

Fees, rebates and funding payments are all the engine writes to the shared balance sheet, and
all of them are in token 0. So the supply of every other token is the same after any of the
engine's own operations, whatever orders match and whatever triggers fire.
-/

namespace Hypercore

open Exec Int128

namespace Engine

/-- A token over both views of all accounts, in the shared balances, if there are any. -/
def tokenSupply (e : Engine) (k : TokenIndex) : Option Int := e.unifiedState.map (·.supply k)

/-! ### Conditions that everything meets -/

section Forall

variable {F : FillCond} {Pay : PayCond}

theorem fillsMeet_of_forall (hF : ∀ e f, F e f) (config : MarketConfig) (fills : List Fill)
    (e : Engine) : FillsMeet F config fills e := by
  induction fills generalizing e with
  | nil => trivial
  | cons fill fills ih => exact fun f _ => ⟨hF e f, fun e' _ => ih e'⟩

theorem submitFills_of_forall (hF : ∀ e f, F e f) (t : Timestamp) (e : Engine)
    (a : AccountAddress) (q : OrderRequest) : SubmitFills F t e a q := by
  rintro ⟨r, e₁⟩ -
  cases r with
  | error err => trivial
  | ok market =>
    intro x _ order _
    unfold ExecuteMeets
    split
    · trivial
    · rintro ⟨r₁, book⟩ -
      cases r₁ with
      | error err => trivial
      | ok p => exact fillsMeet_of_forall hF _ _ _

theorem foldMeets_of_forall {σ ι : Type} {f : σ → ι → Exec σ} {ok : σ → ι → Prop}
    (hok : ∀ s i, ok s i) (is : List ι) (s : σ) : FoldMeets f ok is s := by
  induction is generalizing s with
  | nil => trivial
  | cons i is ih => exact ⟨hok s i, fun s' _ => ih s'⟩

theorem stepMeets_of_forall (hF : ∀ e f, F e f) (hPay : ∀ m acc e a, Pay m acc e a)
    (e : Engine) (op : Op) : StepMeets F Pay e op := by
  have hsubmit (t : Timestamp) := submitFills_of_forall hF t
  cases op with
  | processFunding t =>
    rintro ⟨rates, e₁⟩ -
    refine foldMeets_of_forall (fun e mr => ?_) _ _
    unfold HoldersMeet
    split
    · trivial
    · exact foldMeets_of_forall (fun e a => hPay _ _ e a) _ _
  | placeOrder a q t => exact submitsMeet_of_forall (hsubmit t) e (.placeOrder a q t)
  | checkTriggers m p t => exact submitsMeet_of_forall (hsubmit t) e (.checkTriggers m p t)
  | _ => trivial

end Forall

/-! ### The supply of other tokens -/

section Supply

variable {e e' : Engine} {k : TokenIndex} {c : Option Int}

/-- A change of the shared balances that keeps the supply of a token. -/
theorem onUnified_supply {u u' : Option UnifiedState} {f : UnifiedState → Exec UnifiedState}
    (hf : ∀ v v', f v = .ok v' → v'.supply k = v.supply k) (h : onUnified u f = .ok u') :
    u'.map (·.supply k) = u.map (·.supply k) := by
  cases u with
  | none =>
    obtain rfl := pure_inv h
    rfl
  | some u =>
    obtain ⟨v', hv, h⟩ := bind_inv h
    obtain rfl := pure_inv h
    exact congrArg some (hf u v' hv)

theorem chargeUnified_supply {u u' : UnifiedState} {fill : Fill} (hk : (0 : TokenIndex) ≠ k)
    (h : chargeUnified u fill = .ok u') : u'.supply k = u.supply k := by
  obtain ⟨u₁, h1, h⟩ := bind_inv h
  have hmaker : u₁.supply k = u.supply k := by
    split at h1
    · obtain ⟨⟨r, v⟩, hd, h1⟩ := bind_inv h1
      obtain rfl := pure_inv h1
      exact UnifiedState.debitCore_other hd hk
    · split at h1
      · obtain ⟨rebate, -, h1⟩ := bind_inv h1
        exact UnifiedState.credit_other h1 hk
      · obtain rfl := pure_inv h1
        rfl
  split at h
  · obtain ⟨⟨r, v⟩, hd, h⟩ := bind_inv h
    obtain rfl := pure_inv h
    exact (UnifiedState.debitCore_other hd hk).trans hmaker
  · obtain rfl := pure_inv h
    exact hmaker

theorem payUnified_supply {u u' : UnifiedState} {a : AccountAddress} {x y : Decimal}
    (hk : (0 : TokenIndex) ≠ k) (h : payUnified u a x y = .ok u') :
    u'.supply k = u.supply k := by
  unfold payUnified at h
  split at h
  · obtain ⟨⟨r, v⟩, hd, h⟩ := bind_inv h
    obtain rfl := pure_inv h
    exact UnifiedState.debitCore_other hd hk
  · exact UnifiedState.credit_other h hk

theorem applyFill_tokenSupply {fill : Fill} (hk : (0 : TokenIndex) ≠ k)
    (h : e.applyFill fill = .ok e') : e'.tokenSupply k = e.tokenSupply k := by
  obtain ⟨s₁, -, h⟩ := bind_inv h
  obtain ⟨s₂, -, h⟩ := bind_inv h
  obtain ⟨s₃, -, h⟩ := bind_inv h
  obtain ⟨u, hu, h⟩ := bind_inv h
  obtain ⟨s₄, -, h⟩ := bind_inv h
  obtain rfl := pure_inv h
  exact onUnified_supply (fun _ _ => chargeUnified_supply hk) hu

theorem settleAccount_tokenSupply {m : MarketId} {rate acc : Decimal} {t : Timestamp}
    {a : AccountAddress} (hk : (0 : TokenIndex) ≠ k)
    (h : settleAccount m rate acc t e a = .ok e') : e'.tokenSupply k = e.tokenSupply k := by
  unfold tokenSupply
  rcases settleAccount_cases h with ⟨rfl, -⟩ |
    ⟨p, payment, p', -, -, -, -, -, ⟨-, hsame⟩ | ⟨paymentAbs, -, -, hpaid⟩⟩
  · rfl
  · rw [hsame]
  · exact onUnified_supply (fun _ _ => payUnified_supply hk) hpaid

/-- The supply of another token, as an invariant of the ledger. -/
theorem keeps_tokenSupply (hk : (0 : TokenIndex) ≠ k) :
    Keeps (fun _ _ => True) (fun _ _ _ _ => True) fun e => e.tokenSupply k = c where
  books h0 hsame := by
    unfold tokenSupply
    rw [hsame.unifiedState]
    exact h0
  sync a h0 := by
    unfold tokenSupply
    rw [syncAccount_unified]
    exact h0
  openPosition _ _ h0 := h0
  fill h0 _ _ h := (applyFill_tokenSupply hk h).trans h0
  liquidate h0 h := by
    obtain ⟨_, _, _, _, _, rfl⟩ := liquidate_only h
    exact h0
  settleMarket h0 h := by
    rcases settleMarket_cases h with ⟨-, rfl⟩ | ⟨_, _, _, -, -, -, -, rfl⟩
    · exact h0
    · exact h0
  settleAccount h0 _ h := (settleAccount_tokenSupply hk h).trans h0

/-- **Step.** An operation of the engine keeps the supply of every token but USDC. -/
theorem step_tokenSupply (op : Op) (hk : (0 : TokenIndex) ≠ k) (hown : ¬ External op)
    (h : step op e = .ok e') : e'.tokenSupply k = e.tokenSupply k :=
  step_induction (P := fun e' => e'.tokenSupply k = e.tokenSupply k) (keeps_tokenSupply hk) rfl
    (stepMeets_of_forall (fun _ _ => trivial) (fun _ _ _ _ => trivial) e op)
    (fun hext => absurd hext hown) h

end Supply

end Engine

end Hypercore
