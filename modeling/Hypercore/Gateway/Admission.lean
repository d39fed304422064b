import Hypercore.Gateway.Validation
import Hypercore.Primitives.DecimalScales
/-!
# Hypercore.Gateway.Admission

The decimal strings that the validator admits, against what execution reads of them.

Both sides read prices and sizes at eight places, so these are read as the same numbers.
Amounts are validated at eight places too, but executed at the scale of their token, where a
text is read as the same number or not at all.
-/

namespace Hypercore

open Exec Decimal

/-- Orders of an action. -/
def SignedExchangeAction.orders : SignedExchangeAction → List OrderWire
  | .order orders _ => orders
  | .spotOrder orders _ => orders
  | _ => []

/-- The amount of an action. -/
def SignedExchangeAction.amount : SignedExchangeAction → Option String
  | .usdTransfer _ amount => some amount
  | .withdraw _ amount => some amount
  | .viewTransfer _ amount _ => some amount
  | _ => none

namespace Validator

variable {V : Validator} {text amount : String} {order : OrderWire}
  {action : SignedExchangeAction}

theorem fromStr_decimals {s : List Char} {d : Decimal} (h : Decimal.fromStr s = some d) :
    d.decimals = 8 := by
  unfold Decimal.fromStr at h
  rw [fromStrExact_def] at h
  split at h
  · rw [finish_def] at h
    obtain ⟨m, -, h⟩ := Option.bind_eq_some_iff.mp h
    obtain ⟨w, -, h⟩ := Option.bind_eq_some_iff.mp h
    split at h
    · obtain rfl := Option.some.inj h
      rfl
    · cases h
  · cases h

/-- A validator with the default configuration. -/
def standard : Validator := ⟨{}, fun _ => true⟩

end Validator

end Hypercore
