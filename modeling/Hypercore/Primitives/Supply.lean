import Hypercore.Primitives.UnifiedState
/-!
# Hypercore.Primitives.Supply

What transfers do to the supply of a token.

A move between the two views of an account keeps every supply, and a transfer between accounts
touches no token but its own.
-/

namespace Hypercore

open Exec

namespace UnifiedState

section Supply

variable {u u' : UnifiedState} {a b : AccountAddress} {token k : TokenIndex} {x : Decimal}

theorem evmRaw_of_getBalance {e : UnifiedBalance} (h : u.getBalance a token = some e) :
    u.evmRaw a token = e.evmView.value := by
  unfold evmRaw getEvmView
  rw [h]

/-- What a transfer between the views of an account does: refused, it changes nothing; else it
writes over one entry, and keeps the sum of its views. -/
def ViewsMoved (u u' : UnifiedState) (a : AccountAddress) (token : TokenIndex)
    (r : Except ViewTransferError Unit) : Prop :=
  (u' = u ∧ ∃ err, r = .error err) ∨ r = .ok () ∧ ∃ e e', u.getBalance a token = some e ∧
    e'.coreView.value + e'.evmView.value = e.coreView.value + e.evmView.value ∧
    u' = u.setBalance a token e'

variable {r : Except ViewTransferError Unit}

theorem ViewsMoved.supply (h : ViewsMoved u u' a token r) (k : TokenIndex) :
    u'.supply k = u.supply k := by
  rcases h with ⟨rfl, -⟩ | ⟨-, e, e', he, hsum, rfl⟩
  · rfl
  · rw [supply_setBalance, coreRaw_of_getBalance he, evmRaw_of_getBalance he, hsum]
    simp

theorem ViewsMoved.refused {err : ViewTransferError} (h : ViewsMoved u u' a token (.error err)) :
    u' = u := by
  rcases h with ⟨hsame, -⟩ | ⟨hok, -⟩
  · exact hsame
  · cases hok

theorem transferToEvmView_moves (h : u.transferToEvmView a token x = .ok (r, u')) :
    ViewsMoved u u' a token r := by
  unfold transferToEvmView at h
  split at h
  · obtain ⟨rfl, rfl⟩ := pair_inv h
    exact .inl ⟨rfl, _, rfl⟩
  · rename_i e he
    split at h
    · obtain ⟨rfl, rfl⟩ := pair_inv h
      exact .inl ⟨rfl, _, rfl⟩
    · obtain ⟨core, hcore, h⟩ := bind_inv h
      obtain ⟨evm, hevm, h⟩ := bind_inv h
      obtain ⟨rfl, rfl⟩ := pair_inv h
      obtain ⟨-, rfl⟩ := Decimal.sub_eq_ok.mp hcore
      obtain ⟨-, rfl⟩ := Decimal.add_eq_ok.mp hevm
      refine .inr ⟨rfl, e, _, he, ?_, rfl⟩
      dsimp only
      omega

theorem transferToCoreView_moves (h : u.transferToCoreView a token x = .ok (r, u')) :
    ViewsMoved u u' a token r := by
  unfold transferToCoreView at h
  split at h
  · obtain ⟨rfl, rfl⟩ := pair_inv h
    exact .inl ⟨rfl, _, rfl⟩
  · rename_i e he
    split at h
    · obtain ⟨rfl, rfl⟩ := pair_inv h
      exact .inl ⟨rfl, _, rfl⟩
    · obtain ⟨evm, hevm, h⟩ := bind_inv h
      obtain ⟨core, hcore, h⟩ := bind_inv h
      obtain ⟨rfl, rfl⟩ := pair_inv h
      obtain ⟨-, rfl⟩ := Decimal.sub_eq_ok.mp hevm
      obtain ⟨-, rfl⟩ := Decimal.add_eq_ok.mp hcore
      refine .inr ⟨rfl, e, _, he, ?_, rfl⟩
      dsimp only
      omega

theorem credit_other (h : u.credit a token x = .ok u') (hk : token ≠ k) :
    u'.supply k = u.supply k := by
  rw [credit_supply h, if_neg hk, add_zero]

theorem debitCore_other {r : Bool} (h : u.debitCore a token x = .ok (r, u')) (hk : token ≠ k) :
    u'.supply k = u.supply k := by
  rw [debitCore_supply h, if_neg hk, sub_zero]

/-- A debit that is made burns its amount. -/
theorem debitCore_paid (h : u.debitCore a token x = .ok (true, u')) (k : TokenIndex) :
    u'.supply k = u.supply k - if token = k then x.value else 0 := by
  rcases debitCore_cases h with ⟨hfalse, -⟩ | ⟨-, hcov, -⟩
  · cases hfalse
  · rw [debitCore_supply h, if_pos hcov]

/-- A debit that is refused changes nothing. -/
theorem debitCore_refused (h : u.debitCore a token x = .ok (false, u')) : u' = u := by
  rcases debitCore_cases h with ⟨-, hsame, -⟩ | ⟨htrue, -⟩
  · exact hsame
  · cases htrue

theorem transferCore_other {r : Bool} (h : u.transferCore a b token x = .ok (r, u'))
    (hk : token ≠ k) : u'.supply k = u.supply k := by
  unfold transferCore at h
  dsimp only at h
  split at h
  · obtain ⟨-, rfl⟩ := pair_inv h
    rfl
  · obtain ⟨u₁, h1, h⟩ := bind_inv h
    obtain ⟨u₂, h2, h⟩ := bind_inv h
    obtain ⟨-, rfl⟩ := pair_inv h
    have hdebit : u₁.supply k = u.supply k := by
      split at h1
      · obtain rfl := pure_inv h1
        rfl
      · obtain ⟨total, -, h1⟩ := bind_inv h1
        obtain ⟨core, -, h1⟩ := bind_inv h1
        obtain rfl := pure_inv h1
        rw [supply_setBalance, if_neg hk, add_zero]
    exact (credit_other h2 hk).trans hdebit

end Supply

end UnifiedState

end Hypercore
