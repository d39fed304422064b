import Hypercore.Lib.Int128
/-!
# Hypercore.Primitives.Decimal

`Decimal`, the fixed-point number of every amount, price, size and rate: an
`i128` raw value and the number of decimal places it is scaled by.

The operators are the checked ones of the source followed by `expect`, so a
result outside `i128` halts. Plain `i128` arithmetic (`-value`, `value * 10^k`)
is modelled with overflow checks on: it halts too, where a build without them
would wrap. `debug_assert`s are left out, as in a release build; operations on
two scales therefore act on the raw values, as they do there.

Strings are read and printed as lists of characters.
-/

namespace Hypercore

open Exec Int128

/-- Fixed-point decimal: `value / 10 ^ decimals`. -/
structure Decimal where
  /-- Raw integer value (scaled). -/
  value : Int
  /-- Number of decimal places. -/
  decimals : Nat
  deriving DecidableEq, Repr

namespace Decimal

/-! ### Constants and constructors -/

def priceDecimals : Nat := 8
def sizeDecimals : Nat := 8
def usdcDecimals : Nat := 6
def rateDecimals : Nat := 10

/-- `Decimal::ZERO`. -/
def zero : Decimal := ⟨0, 8⟩

/-- The derived `Default`: raw zero with no decimal places. -/
def default : Decimal := ⟨0, 0⟩

/-- `10i128.pow(k)`. -/
def pow10 (k : Nat) : Exec Int := i128 (10 ^ k)

/-- Create from an integer (no decimals). -/
def fromInt (value : Int) (decimals : Nat) : Exec Decimal := do
  let scale ← pow10 decimals
  let v ← i128 (value * scale)
  return ⟨v, decimals⟩

/-! ### Order

The derived `PartialOrd`/`Ord` compares the raw values first and the number of
decimal places second; it does not bring the two sides to one scale. -/

instance : LT Decimal :=
  ⟨fun a b => a.value < b.value ∨ (a.value = b.value ∧ a.decimals < b.decimals)⟩

instance : LE Decimal :=
  ⟨fun a b => a.value < b.value ∨ (a.value = b.value ∧ a.decimals ≤ b.decimals)⟩

theorem lt_def {a b : Decimal} :
    a < b ↔ a.value < b.value ∨ (a.value = b.value ∧ a.decimals < b.decimals) := Iff.rfl

theorem le_def {a b : Decimal} :
    a ≤ b ↔ a.value < b.value ∨ (a.value = b.value ∧ a.decimals ≤ b.decimals) := Iff.rfl

instance (a b : Decimal) : Decidable (a < b) := decidable_of_iff _ lt_def.symm
instance (a b : Decimal) : Decidable (a ≤ b) := decidable_of_iff _ le_def.symm

theorem not_lt {a b : Decimal} : ¬ a < b ↔ b ≤ a := by
  simp only [lt_def, le_def]
  omega

/-- On one scale the order is that of the raw values. -/
theorem lt_iff_of_decimals {a b : Decimal} (h : a.decimals = b.decimals) :
    a < b ↔ a.value < b.value := by
  simp only [lt_def]
  omega

theorem le_iff_of_decimals {a b : Decimal} (h : a.decimals = b.decimals) :
    a ≤ b ↔ a.value ≤ b.value := by
  simp only [le_def]
  omega

/-! ### Tests and pure operations -/

def isZero (d : Decimal) : Bool := d.value == 0
def isPositive (d : Decimal) : Bool := 0 < d.value
def isNegative (d : Decimal) : Bool := d.value < 0

/-- `min`: by raw value, `self` on a tie. -/
def min (a b : Decimal) : Decimal := if a.value ≤ b.value then a else b

/-- `max`: by raw value, `self` on a tie. -/
def max (a b : Decimal) : Decimal := if b.value ≤ a.value then a else b

variable {d : Decimal}

@[simp] theorem isZero_iff : d.isZero = true ↔ d.value = 0 := by simp [isZero]
@[simp] theorem isZero_eq_false : d.isZero = false ↔ d.value ≠ 0 := by
  simp [isZero]
@[simp] theorem isPositive_iff : d.isPositive = true ↔ 0 < d.value := by
  simp [isPositive]
@[simp] theorem isPositive_eq_false : d.isPositive = false ↔ d.value ≤ 0 := by
  simp [isPositive]
@[simp] theorem isNegative_iff : d.isNegative = true ↔ d.value < 0 := by
  simp [isNegative]
@[simp] theorem isNegative_eq_false : d.isNegative = false ↔ 0 ≤ d.value := by
  simp [isNegative]

theorem min_value (a b : Decimal) :
    (a.min b).value = if a.value ≤ b.value then a.value else b.value := by
  unfold min
  split <;> rfl

/-! ### Arithmetic -/

/-- `a + b`. -/
def add (a b : Decimal) : Exec Decimal := do
  let v ← i128 (a.value + b.value)
  return ⟨v, a.decimals⟩

/-- `a - b`. -/
def sub (a b : Decimal) : Exec Decimal := do
  let v ← i128 (a.value - b.value)
  return ⟨v, a.decimals⟩

/-- `a * b`: the raw product, divided by one scale factor. -/
def mul (a b : Decimal) : Exec Decimal := do
  let rawProduct ← i128 (a.value * b.value)
  let divisor ← pow10 b.decimals
  return ⟨rawProduct.tdiv divisor, a.decimals⟩

/-- `a / b`: the numerator is scaled up first. -/
def div (a b : Decimal) : Exec Decimal :=
  if b.value = 0 then .error .panic
  else do
    let scale ← pow10 b.decimals
    let scaledValue ← i128 (a.value * scale)
    let v ← i128 (scaledValue.tdiv b.value)
    return ⟨v, a.decimals⟩

/-- `-a`. -/
def neg (a : Decimal) : Exec Decimal := do
  let v ← i128 (-a.value)
  return ⟨v, a.decimals⟩

def abs (a : Decimal) : Exec Decimal := do
  let v ← i128 |a.value|
  return ⟨v, a.decimals⟩

def mulInt (a : Decimal) (factor : Int) : Exec Decimal := do
  let v ← i128 (a.value * factor)
  return ⟨v, a.decimals⟩

def divInt (a : Decimal) (divisor : Int) : Exec Decimal :=
  if divisor = 0 then .error .panic
  else do
    let v ← i128 (a.value.tdiv divisor)
    return ⟨v, a.decimals⟩

/-- Convert to a different precision; lower precision truncates toward zero. -/
def toDecimals (a : Decimal) (target : Nat) : Exec Decimal :=
  if target = a.decimals then .ok a
  else if target > a.decimals then do
    let scale ← pow10 (target - a.decimals)
    let v ← i128 (a.value * scale)
    return ⟨v, target⟩
  else do
    let scale ← pow10 (a.decimals - target)
    return ⟨a.value.tdiv scale, target⟩

section Spec

variable {a b c : Decimal}
variable {k : Nat}

@[simp] theorem pow10_eq_ok {v : Int} :
    pow10 k = .ok v ↔ InRange (10 ^ k) ∧ 10 ^ k = v := by
  simp [pow10]

/-- The last step of every operation: package a raw value. -/
theorem bind_mk_eq_ok {x : Exec Int} :
    (do let v ← x; return (⟨v, k⟩ : Decimal)) = .ok c ↔ ∃ v, x = .ok v ∧ c = ⟨v, k⟩ := by
  simp only [bind_eq_ok, pure_eq_ok]
  constructor
  · rintro ⟨v, hv, rfl⟩
    exact ⟨v, hv, rfl⟩
  · rintro ⟨v, hv, rfl⟩
    exact ⟨v, hv, rfl⟩

theorem add_eq_ok : a.add b = .ok c ↔
    InRange (a.value + b.value) ∧ c = ⟨a.value + b.value, a.decimals⟩ := by
  rw [add, bind_mk_eq_ok]
  simp

theorem sub_eq_ok : a.sub b = .ok c ↔
    InRange (a.value - b.value) ∧ c = ⟨a.value - b.value, a.decimals⟩ := by
  rw [sub, bind_mk_eq_ok]
  simp

theorem mul_eq_ok : a.mul b = .ok c ↔
    InRange (a.value * b.value) ∧ InRange (10 ^ b.decimals) ∧
      c = ⟨(a.value * b.value).tdiv (10 ^ b.decimals), a.decimals⟩ := by
  simp only [mul, bind_eq_ok, pure_eq_ok, i128_eq_ok, pow10_eq_ok]
  constructor
  · rintro ⟨_, ⟨hv, rfl⟩, _, ⟨hp, rfl⟩, rfl⟩
    exact ⟨hv, hp, rfl⟩
  · rintro ⟨hv, hp, rfl⟩
    exact ⟨_, ⟨hv, rfl⟩, _, ⟨hp, rfl⟩, rfl⟩

theorem div_eq_ok : a.div b = .ok c ↔
    b.value ≠ 0 ∧ InRange (10 ^ b.decimals) ∧ InRange (a.value * 10 ^ b.decimals) ∧
      InRange ((a.value * 10 ^ b.decimals).tdiv b.value) ∧
      c = ⟨(a.value * 10 ^ b.decimals).tdiv b.value, a.decimals⟩ := by
  unfold div
  split
  · simp_all
  · rename_i hb
    simp only [bind_eq_ok, pure_eq_ok, i128_eq_ok, pow10_eq_ok]
    constructor
    · rintro ⟨_, ⟨hp, rfl⟩, _, ⟨hs, rfl⟩, _, ⟨hv, rfl⟩, rfl⟩
      exact ⟨hb, hp, hs, hv, rfl⟩
    · rintro ⟨-, hp, hs, hv, rfl⟩
      exact ⟨_, ⟨hp, rfl⟩, _, ⟨hs, rfl⟩, _, ⟨hv, rfl⟩, rfl⟩

theorem neg_eq_ok : a.neg = .ok c ↔ InRange (-a.value) ∧ c = ⟨-a.value, a.decimals⟩ := by
  rw [neg, bind_mk_eq_ok]
  simp

theorem abs_eq_ok : a.abs = .ok c ↔ InRange |a.value| ∧ c = ⟨|a.value|, a.decimals⟩ := by
  rw [abs, bind_mk_eq_ok]
  simp

theorem fromInt_eq_ok {v : Int} : fromInt v k = .ok c ↔
    InRange (10 ^ k) ∧ InRange (v * 10 ^ k) ∧ c = ⟨v * 10 ^ k, k⟩ := by
  simp only [fromInt, bind_eq_ok, pure_eq_ok, i128_eq_ok, pow10_eq_ok]
  constructor
  · rintro ⟨_, ⟨hp, rfl⟩, _, ⟨hv, rfl⟩, rfl⟩
    exact ⟨hp, hv, rfl⟩
  · rintro ⟨hp, hv, rfl⟩
    exact ⟨_, ⟨hp, rfl⟩, _, ⟨hv, rfl⟩, rfl⟩

@[simp] theorem toDecimals_self : a.toDecimals a.decimals = .ok a := by simp [toDecimals]

theorem toDecimals_down (h : k < a.decimals) : a.toDecimals k = .ok c ↔
    InRange (10 ^ (a.decimals - k)) ∧ c = ⟨a.value.tdiv (10 ^ (a.decimals - k)), k⟩ := by
  unfold toDecimals
  rw [if_neg (by omega), if_neg (by omega)]
  simp only [bind_eq_ok, pure_eq_ok, pow10_eq_ok]
  constructor
  · rintro ⟨_, ⟨hp, rfl⟩, rfl⟩
    exact ⟨hp, rfl⟩
  · rintro ⟨hp, rfl⟩
    exact ⟨_, ⟨hp, rfl⟩, rfl⟩

theorem toDecimals_up (h : a.decimals < k) : a.toDecimals k = .ok c ↔
    InRange (10 ^ (k - a.decimals)) ∧ InRange (a.value * 10 ^ (k - a.decimals)) ∧
      c = ⟨a.value * 10 ^ (k - a.decimals), k⟩ := by
  unfold toDecimals
  rw [if_neg (by omega), if_pos (by omega)]
  simp only [bind_eq_ok, pure_eq_ok, i128_eq_ok, pow10_eq_ok]
  constructor
  · rintro ⟨_, ⟨hp, rfl⟩, _, ⟨hv, rfl⟩, rfl⟩
    exact ⟨hp, hv, rfl⟩
  · rintro ⟨hp, hv, rfl⟩
    exact ⟨_, ⟨hp, rfl⟩, _, ⟨hv, rfl⟩, rfl⟩

theorem toDecimals_decimals (h : a.toDecimals k = .ok c) : c.decimals = k := by
  rcases Nat.lt_trichotomy k a.decimals with hk | rfl | hk
  · rw [toDecimals_down hk] at h
    rw [h.2]
  · rw [toDecimals_self] at h
    cases h
    rfl
  · rw [toDecimals_up hk] at h
    rw [h.2.2]

theorem mul_zero_value (h : a.mul b = .ok c) (hb : b.value = 0) : c.value = 0 := by
  rw [(mul_eq_ok.mp h).2.2, hb]
  simp

theorem toDecimals_zero_value (h : a.toDecimals k = .ok c) (ha : a.value = 0) :
    c.value = 0 := by
  rcases Nat.lt_trichotomy k a.decimals with hk | rfl | hk
  · rw [toDecimals_down hk] at h
    rw [h.2, ha]
    simp
  · rw [toDecimals_self] at h
    cases h
    exact ha
  · rw [toDecimals_up hk] at h
    rw [h.2.2, ha]
    simp

end Spec

/-! ### Text -/

/-- Unicode `White_Space`, what `str::trim` removes. -/
def isWhitespace (c : Char) : Bool :=
  (0x09 ≤ c.toNat && c.toNat ≤ 0x0D) || c.toNat == 0x20 || c.toNat == 0x85 || c.toNat == 0xA0 ||
  c.toNat == 0x1680 || (0x2000 ≤ c.toNat && c.toNat ≤ 0x200A) || c.toNat == 0x2028 ||
  c.toNat == 0x2029 || c.toNat == 0x202F || c.toNat == 0x205F || c.toNat == 0x3000

/-- `str::trim`. -/
def trim (s : List Char) : List Char :=
  ((s.dropWhile isWhitespace).reverse.dropWhile isWhitespace).reverse

/-- A nonempty run of ASCII digits, read in base ten. -/
def parseDigits (s : List Char) : Option Nat :=
  if s ≠ [] ∧ s.all Char.isDigit then
    some (s.foldl (fun n c => 10 * n + (c.toNat - '0'.toNat)) 0)
  else none

/-- `str::parse::<i128>`: an optional sign and digits, within range. -/
def parseI128 (s : List Char) : Option Int :=
  let signed := match s with
    | '-' :: rest => (parseDigits rest).map fun n => -(n : Int)
    | '+' :: rest => (parseDigits rest).map fun n => (n : Int)
    | rest => (parseDigits rest).map fun n => (n : Int)
  signed.filter fun v => InRange v

/-- `from_str_exact`. A second sign, or a sign after the point, is read by
`parse::<i128>` like any other. -/
def fromStrExact (s : List Char) (decimals : Nat) : Option Decimal :=
  let s := trim s
  let negative := s.head? = some '-'
  let s := if negative then s.tail else s
  match s.splitOn '.' with
  | [integerStr] => finish negative integerStr none
  | [integerStr, decimalStr] => finish negative integerStr (some decimalStr)
  | _ => none
where
  /-- The value of the two parts, `none` on overflow. -/
  finish (negative : Bool) (integerStr : List Char) (decimalStr : Option (List Char)) :
      Option Decimal := do
    let integerPart ← parseI128 integerStr
    let decimalPart ← match decimalStr with
      | none => some 0
      | some ds =>
        if ds.length > decimals then none
        else parseI128 (ds ++ List.replicate (decimals - ds.length) '0')
    let scaled := integerPart * 10 ^ decimals
    if InRange scaled ∧ InRange (scaled + decimalPart) then
      some ⟨if negative then -(scaled + decimalPart) else scaled + decimalPart, decimals⟩
    else none

/-- `from_str`: price decimals by default. -/
def fromStr (s : List Char) : Option Decimal := fromStrExact s priceDecimals

/-- Convert to string with all decimal places. -/
def toStringFull (d : Decimal) : String :=
  let scale := 10 ^ d.decimals
  let sign := if d.value < 0 then "-" else ""
  let decimal := toString (d.value.natAbs % scale)
  sign ++ toString (d.value.natAbs / scale) ++ "." ++
    String.ofList (List.replicate (d.decimals - decimal.length) '0') ++ decimal

/-- Convert to string, trimming trailing zeros. -/
def toStringTrimmed (d : Decimal) : String :=
  let dropEnd (c : Char) (s : List Char) := (s.reverse.dropWhile (· == c)).reverse
  String.ofList (dropEnd '.' (dropEnd '0' d.toStringFull.toList))

end Decimal

end Hypercore
