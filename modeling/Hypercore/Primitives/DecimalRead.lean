import Hypercore.Primitives.DecimalText
import Mathlib.Tactic.FieldSimp
/-!
# Hypercore.Primitives.DecimalRead

Which texts are read as a decimal.

`DecimalText` leaves out where the two functions overflow: on more than 38 places the scale
is no `i128`, and the lowest `i128` has no absolute value. `Trapping` has both functions with
these ends. A text should be read when it is a `Numeral`, as the number it writes; `Misread`
lists the texts where that is not so, most of them because `parse::<i128>` takes a sign of
its own in each part.
-/

namespace Hypercore

open Exec Int128

namespace Decimal

namespace Trapping

/-- Convert to string with all decimal places. -/
def toStringFull (d : Decimal) : Exec String := do
  let scale ← pow10 d.decimals
  let sign := if d.value < 0 then "-" else ""
  let absValue ← i128 |d.value|
  let integer := absValue.tdiv scale
  let decimal := toString (absValue.tmod scale)
  return sign ++ toString integer ++ "." ++
    String.ofList (List.replicate (d.decimals - decimal.length) '0') ++ decimal

/-- Convert to string, trimming trailing zeros. -/
def toStringTrimmed (d : Decimal) : Exec String := do
  let full ← toStringFull d
  let dropEnd (c : Char) (s : List Char) := (s.reverse.dropWhile (· == c)).reverse
  return String.ofList (dropEnd '.' (dropEnd '0' full.toList))

/-- The value of the two parts of a text. -/
def finish (decimals : Nat) (negative : Bool) (integerStr : List Char)
    (decimalStr : Option (List Char)) : Exec (Option Decimal) :=
  match parseI128 integerStr with
  | none => return none
  | some integerPart => do
    let scale ← pow10 decimals
    match decimalPart decimals decimalStr with
    | none => return none
    | some decimalPart =>
      if InRange (integerPart * scale) ∧ InRange (integerPart * scale + decimalPart) then do
        let value := integerPart * scale + decimalPart
        let value ← if negative then i128 (-value) else .ok value
        return some ⟨value, decimals⟩
      else return none

/-- `from_str_exact`. -/
def fromStrExact (s : List Char) (decimals : Nat) : Exec (Option Decimal) :=
  let s := trim s
  let negative := s.head? = some '-'
  let s := if negative then s.tail else s
  match s.splitOn '.' with
  | [integerStr] => finish decimals negative integerStr none
  | [integerStr, decimalStr] => finish decimals negative integerStr (some decimalStr)
  | _ => return none

end Trapping

/-! ### Where the traps are -/

/-- A power of ten is an `i128` up to 38 places. -/
theorem inRange_pow10 {k : Nat} : InRange (10 ^ k) ↔ k ≤ 38 := by
  constructor
  · intro h
    by_contra hk
    have hle : (10 : Int) ^ 39 ≤ 10 ^ k := pow_le_pow_right₀ (by decide) (by omega)
    have hlt := h.2
    exact absurd (hle.trans_lt hlt) (by decide)
  · intro hk
    have hle : (10 : Int) ^ k ≤ 10 ^ 38 := pow_le_pow_right₀ (by decide) hk
    have hpos : (0 : Int) < 10 ^ k := by positivity
    have hmax : (10 : Int) ^ 38 < 2 ^ 127 := by decide
    unfold InRange
    omega

theorem toStringTrimmed_eq_ok {d : Decimal} {text : String} :
    Trapping.toStringTrimmed d = .ok text ↔
      d.decimals ≤ 38 ∧ InRange |d.value| ∧ text = d.toStringTrimmed := by
  have hwhole : toString (|d.value|.tdiv (10 ^ d.decimals)) =
      toString (d.value.natAbs / 10 ^ d.decimals) := by
    rw [Int.tdiv_eq_ediv_of_nonneg (abs_nonneg _), ← Int.natCast_natAbs]
    rfl
  have hplaces : toString (|d.value|.tmod (10 ^ d.decimals)) =
      toString (d.value.natAbs % 10 ^ d.decimals) := by
    rw [Int.tmod_eq_emod_of_nonneg (abs_nonneg _), ← Int.natCast_natAbs]
    rfl
  unfold Trapping.toStringTrimmed Trapping.toStringFull
  simp only [bind_eq_ok, pure_eq_ok, pow10_eq_ok, i128_eq_ok, inRange_pow10]
  constructor
  · rintro ⟨full, ⟨_, ⟨hk, rfl⟩, _, ⟨hrange, rfl⟩, rfl⟩, rfl⟩
    rw [hwhole, hplaces]
    exact ⟨hk, hrange, rfl⟩
  · rintro ⟨hk, hrange, rfl⟩
    refine ⟨_, ⟨_, ⟨hk, rfl⟩, _, ⟨hrange, rfl⟩, rfl⟩, ?_⟩
    rw [hwhole, hplaces]
    rfl

section Finish

variable {k : Nat} {negative : Bool} {i : List Char} {f : Option (List Char)} {v w : Int}

theorem finish_none (hi : parseI128 i = none) : Trapping.finish k negative i f = .ok none := by
  unfold Trapping.finish
  rw [hi]
  rfl

variable (hi : parseI128 i = some v)
include hi

/-- The scale overflows after the integer part is read. -/
theorem finish_scale (hk : 38 < k) : Trapping.finish k negative i f = .error .panic := by
  have hpow : pow10 k = .error .panic := by
    unfold pow10 i128
    exact if_neg (mt inRange_pow10.mp (by omega))
  unfold Trapping.finish
  rw [hi]
  dsimp only
  rw [hpow]
  rfl

theorem finish_of_scale (hk : k ≤ 38) : Trapping.finish k negative i f =
    match decimalPart k f with
    | none => .ok none
    | some w => if InRange (v * 10 ^ k) ∧ InRange (v * 10 ^ k + w) then
        if negative then i128 (-(v * 10 ^ k + w)) >>= fun value => .ok (some ⟨value, k⟩)
        else .ok (some ⟨v * 10 ^ k + w, k⟩)
      else .ok none := by
  have hpow : pow10 k = .ok (10 ^ k) := pow10_eq_ok.mpr ⟨inRange_pow10.mpr hk, rfl⟩
  unfold Trapping.finish
  rw [hi]
  dsimp only
  rw [hpow]
  rfl

theorem finish_fraction (hk : k ≤ 38) (hf : decimalPart k f = none) :
    Trapping.finish k negative i f = .ok none := by
  rw [finish_of_scale hi hk, hf]

variable (hf : decimalPart k f = some w)
include hf

theorem finish_overflow (hk : k ≤ 38) (h : ¬ (InRange (v * 10 ^ k) ∧ InRange (v * 10 ^ k + w))) :
    Trapping.finish k negative i f = .ok none := by
  rw [finish_of_scale hi hk, hf]
  exact if_neg h

theorem finish_value (hk : k ≤ 38) (h : InRange (v * 10 ^ k) ∧ InRange (v * 10 ^ k + w))
    (hneg : negative = true → InRange (-(v * 10 ^ k + w))) :
    Trapping.finish k negative i f =
      .ok (some ⟨if negative then -(v * 10 ^ k + w) else v * 10 ^ k + w, k⟩) := by
  rw [finish_of_scale hi hk, hf]
  refine (if_pos h).trans ?_
  cases negative with
  | false => rfl
  | true =>
    have hvalue := i128_eq_ok.mpr ⟨hneg rfl, rfl⟩
    simp only [if_true]
    rw [hvalue]
    rfl

/-- Where the value is in range a text that reads returns no `None`. -/
theorem finish_ne_none (h : InRange (v * 10 ^ k) ∧ InRange (v * 10 ^ k + w)) :
    Trapping.finish k negative i f ≠ .ok none := by
  intro hnone
  by_cases hk : k ≤ 38
  · rw [finish_of_scale hi hk, hf] at hnone
    have hnone := (if_pos h).symm.trans hnone
    split at hnone
    · obtain ⟨value, -, hvalue⟩ := bind_inv hnone
      cases hvalue
    · cases hnone
  · rw [finish_scale hi (by omega)] at hnone
    cases hnone

end Finish

/-! ### The parts of a text -/

/-- The two parts of a text without its sign, the second one if there is a point. -/
def parts (t : List Char) : Option (List Char × Option (List Char)) :=
  match (if t.head? = some '-' then t.tail else t).splitOn '.' with
  | [i] => some (i, none)
  | [i, f] => some (i, some f)
  | _ => none

theorem Trapping.fromStrExact_def (s : List Char) (k : Nat) :
    Trapping.fromStrExact s k =
      match parts (trim s) with
      | some (i, f) => Trapping.finish k ((trim s).head? = some '-') i f
      | none => .ok none := by
  unfold Trapping.fromStrExact parts
  dsimp only
  split <;> rfl

/-- The end of a text from its point on. -/
def pointed : Option (List Char) → List Char
  | none => []
  | some f => '.' :: f

/-- The parts of a text put together are the text. -/
theorem text_of_parts {t i : List Char} {f : Option (List Char)} (h : parts t = some (i, f)) :
    t = (if t.head? = some '-' then ['-'] else []) ++ i ++ pointed f := by
  have hjoin : (if t.head? = some '-' then t.tail else t) = i ++ pointed f := by
    have hinter : ['.'].intercalate ((if t.head? = some '-' then t.tail else t).splitOn '.') =
        if t.head? = some '-' then t.tail else t := List.intercalate_splitOn '.'
    unfold parts at h
    split at h
    · rename_i hsplit
      obtain ⟨rfl, rfl⟩ := Prod.mk.inj (Option.some.inj h)
      rw [hsplit] at hinter
      simpa [pointed] using hinter.symm
    · rename_i hsplit
      obtain ⟨rfl, rfl⟩ := Prod.mk.inj (Option.some.inj h)
      rw [hsplit] at hinter
      simpa [pointed, List.intercalate] using hinter.symm
    · cases h
  rw [List.append_assoc, ← hjoin]
  by_cases hhead : t.head? = some '-'
  · rw [if_pos hhead, if_pos hhead]
    obtain ⟨l, rfl⟩ := List.head?_eq_some_iff.mp hhead
    rfl
  · rw [if_neg hhead, if_neg hhead]
    rfl

/-! ### Numerals -/

/-- The number that two parts write on `k` places. -/
def magnitude (k : Nat) (i : List Char) (f : Option (List Char)) : Nat :=
  digitsValue i * 10 ^ k + digitsValue (f.getD []) * 10 ^ (k - (f.getD []).length)

/-- An optional minus, one or more digits, and optionally a point and digits. -/
structure Numeral where
  minus : Bool
  whole : List Char
  fraction : Option (List Char)
  whole_ne : whole ≠ []
  whole_digits : ∀ c ∈ whole, c.isDigit = true
  fraction_digits : ∀ c ∈ fraction.getD [], c.isDigit = true

namespace Numeral

def text (n : Numeral) : List Char :=
  (if n.minus then ['-'] else []) ++ n.whole ++ pointed n.fraction

/-- The digits after the point. -/
def places (n : Numeral) : List Char := n.fraction.getD []

/-- The number that is written. -/
def value (n : Numeral) : ℚ :=
  (if n.minus then -1 else 1) *
    (digitsValue n.whole + digitsValue n.places / 10 ^ n.places.length)

/-- On as many places as are written, the value is an integer. -/
theorem toRat_eq_value {n : Numeral} {k : Nat} {v : Int} (hk : n.places.length ≤ k) :
    (⟨v, k⟩ : Decimal).toRat = n.value ↔
      v = if n.minus then -(magnitude k n.whole n.fraction : Int)
        else magnitude k n.whole n.fraction := by
  have hpow : (10 : ℚ) ^ k = 10 ^ (k - n.places.length) * 10 ^ n.places.length := by
    rw [← pow_add, Nat.sub_add_cancel hk]
  have hvalue : (magnitude k n.whole n.fraction : ℚ) =
      (digitsValue n.whole + digitsValue n.places / 10 ^ n.places.length) * 10 ^ k := by
    unfold magnitude
    change ((digitsValue n.whole * 10 ^ k +
      digitsValue n.places * 10 ^ (k - n.places.length) : Nat) : ℚ) = _
    push_cast
    rw [add_mul, hpow]
    field_simp
  have hne : (10 : ℚ) ^ k ≠ 0 := by positivity
  unfold value toRat
  rw [div_eq_iff hne, mul_assoc, ← hvalue]
  cases n.minus with
  | false =>
    simp only [Bool.false_eq_true, if_false, one_mul]
    exact_mod_cast Iff.rfl
  | true =>
    simp only [if_true, neg_mul, one_mul]
    exact_mod_cast Iff.rfl

theorem parts_text (n : Numeral) :
    parts n.text = some (n.whole, n.fraction) ∧ (n.text.head? = some '-' ↔ n.minus = true) := by
  have hpoint {l : List Char} (hl : ∀ c ∈ l, c.isDigit = true) : '.' ∉ l := fun h =>
    absurd (hl '.' h) (by decide)
  obtain ⟨c, rest, hcons⟩ := List.exists_cons_of_ne_nil n.whole_ne
  have hc : c ≠ '-' := by
    rintro rfl
    exact absurd (n.whole_digits '-' (by rw [hcons]; exact .head _)) (by decide)
  have hhead : n.text.head? = some '-' ↔ n.minus = true := by
    unfold text
    rw [hcons]
    cases n.minus with
    | false => simp [hc]
    | true => simp
  have hrest : (if n.text.head? = some '-' then n.text.tail else n.text) =
      n.whole ++ pointed n.fraction := by
    simp only [hhead]
    unfold text
    cases n.minus with
    | false => simp
    | true => simp
  refine ⟨?_, hhead⟩
  unfold parts
  rw [hrest]
  have hfraction := n.fraction_digits
  cases hf : n.fraction with
  | none =>
    have hsplit : (n.whole ++ pointed none).splitOn '.' = [n.whole] := by
      unfold pointed
      rw [List.append_nil]
      exact List.splitOn_eq_singleton (hpoint n.whole_digits)
    rw [hsplit]
  | some f =>
    rw [hf] at hfraction
    have hsplit : (n.whole ++ pointed (some f)).splitOn '.' = [n.whole, f] := by
      unfold pointed
      rw [List.splitOn_append_cons_self_of_not_mem (hpoint n.whole_digits),
        List.splitOn_eq_singleton (hpoint (l := f) hfraction)]
    rw [hsplit]

end Numeral

/-- A text writes a decimal of `k` places. -/
def Written (k : Nat) (t : List Char) (d : Decimal) : Prop :=
  ∃ n : Numeral, n.text = t ∧ n.places.length ≤ k ∧ d.decimals = k ∧ d.toRat = n.value ∧
    InRange d.value

/-- A part of a text has a sign of its own. -/
def OwnSign (s : List Char) : Prop := s.head? = some '-' ∨ s.head? = some '+'

variable {s : List Char}

/-- An integer without a sign of its own is a string of digits. -/
theorem digits_of_parse {v : Int} (h : parseI128 s = some v) (hsign : ¬ OwnSign s) :
    s ≠ [] ∧ (∀ c ∈ s, c.isDigit = true) ∧ v = digitsValue s := by
  have hdigits : s ≠ [] ∧ ∀ c ∈ s, c.isDigit = true := by
    unfold parseI128 at h
    split at h
    · exact absurd (.inl rfl) hsign
    · exact absurd (.inr rfl) hsign
    · unfold parseDigits at h
      split at h
      · rename_i hs
        exact ⟨hs.1, List.all_eq_true.mp hs.2⟩
      · cases h
  rw [parseI128_of_digits hdigits.1 hdigits.2, Option.filter_eq_some_iff] at h
  exact ⟨hdigits.1, hdigits.2, (Option.some.inj h.1).symm⟩

theorem digitsValue_lt (hdigits : ∀ c ∈ s, c.isDigit = true) :
    digitsValue s < 10 ^ s.length := by
  induction s using List.reverseRecOn with
  | nil => decide
  | append_singleton s c ih =>
    have hs := ih fun c' hc' => hdigits c' (List.mem_append_left _ hc')
    have hc := Char.isDigit_iff_toNat.mp (hdigits c (List.mem_append_right _ (.head _)))
    have hzero : '0'.toNat = 48 := rfl
    have hnine : '9'.toNat = 57 := rfl
    rw [digitsValue_concat, List.length_append, List.length_singleton, pow_succ]
    omega

/-- Digits after the point are read as they are, where any are asked for. -/
theorem decimalPart_of_digits {k : Nat} {f : Option (List Char)} (hk : k ≤ 38)
    (hdigits : ∀ c ∈ f.getD [], c.isDigit = true) (hlength : (f.getD []).length ≤ k)
    (hbare : ¬ (k = 0 ∧ f = some [])) :
    decimalPart k f =
      some ((digitsValue (f.getD []) * 10 ^ (k - (f.getD []).length) : Nat) : Int) := by
  cases f with
  | none =>
    have hzero : digitsValue [] = 0 := rfl
    simp only [Option.getD_none, hzero, Nat.zero_mul]
    rfl
  | some g =>
    simp only [Option.getD_some] at hdigits hlength ⊢
    have hpadded : ∀ c ∈ g ++ List.replicate (k - g.length) '0', c.isDigit = true := by
      intro c hc
      rcases List.mem_append.mp hc with hc | hc
      · exact hdigits c hc
      · exact isDigit_of_mem_replicate hc
    have hlen : (g ++ List.replicate (k - g.length) '0').length = k := by
      rw [List.length_append, List.length_replicate, Nat.add_sub_cancel' hlength]
    have hne : g ++ List.replicate (k - g.length) '0' ≠ [] := by
      intro hnil
      rw [hnil, List.length_nil] at hlen
      exact hbare ⟨hlen.symm, congrArg some (List.append_eq_nil_iff.mp hnil).1⟩
    have hlt := digitsValue_lt hpadded
    rw [hlen] at hlt
    have hin : InRange (digitsValue (g ++ List.replicate (k - g.length) '0') : Int) := by
      have hmax := (inRange_pow10.mpr hk).2
      have hlt' :
          ((digitsValue (g ++ List.replicate (k - g.length) '0') : Nat) : Int) < 10 ^ k := by
        exact_mod_cast hlt
      unfold InRange
      omega
    refine (if_neg (Nat.not_lt.mpr hlength)).trans ?_
    rw [digitsValue_append_zeros] at hin
    rw [parseI128_of_digits hne hpadded, digitsValue_append_zeros, Option.filter_some,
      if_pos (decide_eq_true hin)]

/-- A fraction without a sign of its own is read only as its digits. -/
theorem digits_of_decimalPart {k : Nat} {f : Option (List Char)} {w : Int}
    (h : decimalPart k f = some w) (hsign : ∀ g ∈ f, ¬ OwnSign g) :
    (∀ c ∈ f.getD [], c.isDigit = true) ∧ (f.getD []).length ≤ k ∧
      w = (digitsValue (f.getD []) * 10 ^ (k - (f.getD []).length) : Nat) := by
  cases f with
  | none =>
    obtain rfl := Option.some.inj h
    exact ⟨nofun, Nat.zero_le k, (congrArg Int.ofNat (Nat.zero_mul _)).symm⟩
  | some g =>
    unfold decimalPart at h
    dsimp only at h
    split at h
    · cases h
    · rename_i hlength
      have hown : ¬ OwnSign (g ++ List.replicate (k - g.length) '0') := by
        cases g with
        | nil =>
          unfold OwnSign
          cases k <;> simp [List.replicate_succ]
        | cons c g => exact hsign (c :: g) rfl
      obtain ⟨-, hdigits, rfl⟩ := digits_of_parse h hown
      rw [digitsValue_append_zeros]
      exact ⟨fun c hc => hdigits c (List.mem_append_left _ hc), Nat.not_lt.mp hlength, rfl⟩

/-! ### Reading -/

/-- The parts of a text are those of a numeral with at most `k` places. -/
structure IsNumeral (k : Nat) (i : List Char) (f : Option (List Char)) : Prop where
  whole_ne : i ≠ []
  whole_digits : ∀ c ∈ i, c.isDigit = true
  fraction_digits : ∀ c ∈ f.getD [], c.isDigit = true
  length_le : (f.getD []).length ≤ k

section Parts

variable {k : Nat} {t i : List Char} {f : Option (List Char)} {d : Decimal} {v w : Int}

/-- What a text with two parts writes. -/
theorem written_iff (hparts : parts t = some (i, f)) : Written k t d ↔ IsNumeral k i f ∧
    InRange d.value ∧ d = ⟨if t.head? = some '-' then -(magnitude k i f : Int)
      else magnitude k i f, k⟩ := by
  constructor
  · rintro ⟨n, rfl, hlength, rfl, hvalue, hrange⟩
    obtain ⟨hnparts, hminus⟩ := n.parts_text
    obtain ⟨rfl, rfl⟩ := Prod.mk.inj (Option.some.inj (hnparts.symm.trans hparts))
    have hv := (Numeral.toRat_eq_value (v := d.value) hlength).mp hvalue
    refine ⟨⟨n.whole_ne, n.whole_digits, n.fraction_digits, hlength⟩, hrange, ?_⟩
    simp only [hminus]
    exact congrArg (fun v => (⟨v, d.decimals⟩ : Decimal)) hv
  · rintro ⟨h, hrange, rfl⟩
    refine ⟨⟨t.head? = some '-', i, f, h.whole_ne, h.whole_digits, h.fraction_digits⟩, ?_,
      h.length_le, rfl, (Numeral.toRat_eq_value h.length_le).mpr ?_, hrange⟩
    · have htext := text_of_parts hparts
      conv_rhs => rw [htext]
      simp [Numeral.text]
    · simp only [decide_eq_true_eq]

theorem Written.parts_ne_none (h : Written k t d) : parts t ≠ none := by
  obtain ⟨n, rfl, -⟩ := h
  rw [n.parts_text.1]
  exact Option.some_ne_none _

/-- Digits are no sign. -/
theorem not_ownSign {l : List Char} (h : ∀ c ∈ l, c.isDigit = true) : ¬ OwnSign l := by
  rintro (hhead | hhead)
  · exact absurd (h '-' (List.mem_of_head? hhead)) (by decide)
  · exact absurd (h '+' (List.mem_of_head? hhead)) (by decide)

theorem IsNumeral.not_ownSign_fraction (h : IsNumeral k i f) : ∀ g ∈ f, ¬ OwnSign g := by
  intro g hg
  obtain rfl := Option.mem_def.mp hg
  exact not_ownSign h.fraction_digits

/-- What the two parts of a numeral add up to. -/
theorem IsNumeral.sum_eq (h : IsNumeral k i f) (hi : parseI128 i = some v)
    (hf : decimalPart k f = some w) :
    0 ≤ v * 10 ^ k ∧ v * 10 ^ k ≤ magnitude k i f ∧ v * 10 ^ k + w = magnitude k i f := by
  obtain ⟨-, -, rfl⟩ := digits_of_parse hi (not_ownSign h.whole_digits)
  obtain ⟨-, -, rfl⟩ := digits_of_decimalPart hf h.not_ownSign_fraction
  have hscaled : (digitsValue i : Int) * 10 ^ k = ((digitsValue i * 10 ^ k : Nat) : Int) := by
    push_cast
    rfl
  unfold magnitude
  rw [hscaled]
  omega

/-- A numeral in range is the lowest integer, or its sum is in range. -/
theorem Written.sum_inRange (h : Written k t d) (hparts : parts t = some (i, f))
    (hi : parseI128 i = some v) (hf : decimalPart k f = some w) :
    (InRange (v * 10 ^ k) ∧ InRange (v * 10 ^ k + w)) ∨ Written k t ⟨-2 ^ 127, k⟩ := by
  obtain ⟨hnum, hrange, hd⟩ := (written_iff hparts).mp h
  obtain ⟨h0, hle, hsum⟩ := hnum.sum_eq hi hf
  by_cases hlow : d.value = -2 ^ 127
  · right
    have hlowest : d = ⟨-2 ^ 127, k⟩ := by
      rw [← hlow]
      exact hd ▸ rfl
    exact hlowest ▸ h
  · left
    rw [hsum]
    rw [hd] at hrange hlow
    dsimp only at hrange hlow
    unfold InRange at hrange ⊢
    split at hrange
    · rename_i hhead
      rw [if_pos hhead] at hlow
      omega
    · omega

/-- A numeral whose integer part is out of range is the lowest integer. -/
theorem Written.lowest_of_none (h : Written k t d) (hparts : parts t = some (i, f))
    (hi : parseI128 i = none) : k = 0 ∧ Written k t ⟨-2 ^ 127, k⟩ := by
  obtain ⟨hnum, hrange, hd⟩ := (written_iff hparts).mp h
  rw [parseI128_of_digits hnum.whole_ne hnum.whole_digits, Option.filter_eq_none_iff] at hi
  have hout : 2 ^ 127 ≤ digitsValue i := by
    have hnot := hi _ rfl
    simp only [decide_eq_true_eq] at hnot
    unfold InRange at hnot
    omega
  have hmag : magnitude k i f ≤ 2 ^ 127 := by
    rw [hd] at hrange
    dsimp only at hrange
    unfold InRange at hrange
    split at hrange <;> omega
  have hscaled : digitsValue i * 10 ^ k ≤ magnitude k i f := Nat.le_add_right _ _
  have hk : k = 0 := by
    by_contra hk
    have hten : 10 ^ 1 ≤ 10 ^ k := Nat.pow_le_pow_right (by decide) (by omega)
    have hmul := Nat.mul_le_mul hout hten
    omega
  subst hk
  rw [Nat.pow_zero, Nat.mul_one] at hscaled
  have hlow : d.value = -2 ^ 127 := by
    have hvalue := congrArg Decimal.value hd
    rw [hd] at hrange
    dsimp only at hvalue hrange
    unfold InRange at hrange
    split at hvalue
    · omega
    · rename_i hhead
      rw [if_neg hhead] at hrange
      omega
  have hlowest : d = ⟨-2 ^ 127, 0⟩ := by
    rw [← hlow]
    exact hd ▸ rfl
  exact ⟨rfl, hlowest ▸ h⟩

end Parts

/-- The text is read as the number it writes, and not at all when it writes none. -/
def Reads (k : Nat) (s : List Char) : Prop :=
  ∃ r, Trapping.fromStrExact s k = .ok r ∧ ∀ d, r = some d ↔ Written k (trim s) d

/-- Where a text is not read as the number it writes. -/
inductive Misread (k : Nat) (t : List Char) : Prop
  /-- The integer part is read, and the scale overflows. -/
  | scale {i : List Char} {f : Option (List Char)} {v : Int} (hparts : parts t = some (i, f))
      (hi : parseI128 i = some v) (hk : 38 < k)
  /-- A part has a sign of its own, and with it the text is an integer in range. -/
  | ownSign {i : List Char} {f : Option (List Char)} {v w : Int}
      (hparts : parts t = some (i, f)) (hsign : OwnSign i ∨ ∃ g ∈ f, OwnSign g)
      (hi : parseI128 i = some v) (hf : decimalPart k f = some w)
      (hrange : InRange (v * 10 ^ k) ∧ InRange (v * 10 ^ k + w))
  /-- No places are asked for, and the text ends in its point. -/
  | barePoint {d : Decimal} (hk : k = 0) (hlast : t.getLast? = some '.') (h : Written k t d)
  /-- The text writes the lowest integer. -/
  | lowest (hk : k ≤ 38) (h : Written k t ⟨-2 ^ 127, k⟩)

/-- A text ends in its point when nothing stands behind it. -/
theorem getLast?_of_parts {t i : List Char} (h : parts t = some (i, some [])) :
    t.getLast? = some '.' := by
  have htext := text_of_parts h
  rw [htext]
  exact List.getLast?_concat

/-- A text without places that ends in its point has a point. -/
theorem Written.point {t i : List Char} {f : Option (List Char)} {d : Decimal}
    (h : Written 0 t d) (hparts : parts t = some (i, f)) (hlast : t.getLast? = some '.') :
    f = some [] := by
  obtain ⟨hnum, -, -⟩ := (written_iff hparts).mp h
  cases f with
  | none =>
    have htext := text_of_parts hparts
    unfold pointed at htext
    rw [List.append_nil] at htext
    have hend : t.getLast? = some (i.getLast hnum.whole_ne) := by
      rw [htext, List.getLast?_append_of_ne_nil _ hnum.whole_ne,
        List.getLast?_eq_some_getLast hnum.whole_ne]
    have hdigit := hnum.whole_digits _ (List.getLast_mem hnum.whole_ne)
    rw [Option.some.inj (hend.symm.trans hlast)] at hdigit
    exact absurd hdigit (by decide)
  | some g =>
    exact congrArg some (List.eq_nil_of_length_eq_zero (Nat.le_zero.mp hnum.length_le))

theorem Misread.not_reads {k : Nat} (h : Misread k (trim s)) : ¬ Reads k s := by
  rintro ⟨r, hr, hiff⟩
  rw [Trapping.fromStrExact_def] at hr
  cases h with
  | scale hparts hi hk =>
    rw [hparts] at hr
    dsimp only at hr
    rw [finish_scale hi hk] at hr
    cases hr
  | ownSign hparts hsign hi hf hrange =>
    rw [hparts] at hr
    cases r with
    | none => exact finish_ne_none hi hf hrange hr
    | some d =>
      obtain ⟨hnum, -, -⟩ := (written_iff hparts).mp ((hiff d).mp rfl)
      rcases hsign with hsign | ⟨g, hg, hsign⟩
      · exact not_ownSign hnum.whole_digits hsign
      · exact hnum.not_ownSign_fraction g hg hsign
  | barePoint hk hlast h =>
    subst hk
    obtain rfl := (hiff _).mpr h
    obtain ⟨⟨i, f⟩, hparts⟩ := Option.ne_none_iff_exists'.mp h.parts_ne_none
    obtain rfl := h.point hparts hlast
    rw [hparts] at hr
    dsimp only at hr
    cases hi : parseI128 i with
    | none =>
      rw [finish_none hi] at hr
      cases hr
    | some v =>
      rw [finish_fraction hi (Nat.zero_le _) (by decide)] at hr
      cases hr
  | lowest hk h =>
    obtain rfl := (hiff _).mpr h
    obtain ⟨⟨i, f⟩, hparts⟩ := Option.ne_none_iff_exists'.mp h.parts_ne_none
    obtain ⟨hnum, -, hd⟩ := (written_iff hparts).mp h
    rw [hparts] at hr
    dsimp only at hr
    cases hi : parseI128 i with
    | none =>
      rw [finish_none hi] at hr
      cases hr
    | some v =>
      cases hf : decimalPart k f with
      | none =>
        rw [finish_fraction hi hk hf] at hr
        cases hr
      | some w =>
        -- the sum would have to be 2 ^ 127
        obtain ⟨-, -, hsum⟩ := hnum.sum_eq hi hf
        have hvalue := congrArg Decimal.value hd
        dsimp only at hvalue
        rw [finish_overflow hi hf hk fun hrange => ?_] at hr
        · cases hr
        · have hin := hrange.2
          rw [hsum] at hin
          unfold InRange at hin
          split at hvalue <;> omega

/-- **Reading.** A text is read as the number it writes, unless the scale overflows, a part
has a sign of its own, it ends in a point where no places are asked for, or it writes the
lowest integer. -/
theorem reads_iff {k : Nat} : Reads k s ↔ ¬ Misread k (trim s) := by
  refine ⟨fun h hmis => hmis.not_reads h, fun hmis => ?_⟩
  unfold Reads
  rw [Trapping.fromStrExact_def]
  cases hparts : parts (trim s) with
  | none => exact ⟨none, rfl, fun d => ⟨nofun, fun h => absurd hparts h.parts_ne_none⟩⟩
  | some p =>
    obtain ⟨i, f⟩ := p
    dsimp only
    cases hi : parseI128 i with
    | none =>
      refine ⟨none, finish_none hi, fun d => ⟨nofun, fun h => ?_⟩⟩
      obtain ⟨rfl, hlow⟩ := h.lowest_of_none hparts hi
      exact absurd (.lowest (Nat.zero_le _) hlow) hmis
    | some v =>
      by_cases hk : k ≤ 38
      · cases hf : decimalPart k f with
        | none =>
          refine ⟨none, finish_fraction hi hk hf, fun d => ⟨nofun, fun h => ?_⟩⟩
          obtain ⟨hnum, -, -⟩ := (written_iff hparts).mp h
          have hread := decimalPart_of_digits hk hnum.fraction_digits hnum.length_le
          by_cases hbare : k = 0 ∧ f = some []
          · obtain ⟨rfl, rfl⟩ := hbare
            exact absurd (.barePoint rfl (getLast?_of_parts hparts) h) hmis
          · rw [hf] at hread
            cases hread hbare
        | some w =>
          by_cases hrange : InRange (v * 10 ^ k) ∧ InRange (v * 10 ^ k + w)
          · -- neither part has a sign of its own, so both are digits
            have hi' : ¬ OwnSign i := fun hsign => hmis (.ownSign hparts (.inl hsign) hi hf hrange)
            have hf' : ∀ g ∈ f, ¬ OwnSign g := fun g hg hsign =>
              hmis (.ownSign hparts (.inr ⟨g, hg, hsign⟩) hi hf hrange)
            obtain ⟨hne, hwhole, -⟩ := digits_of_parse hi hi'
            obtain ⟨hfraction, hlength, -⟩ := digits_of_decimalPart hf hf'
            have hnum : IsNumeral k i f := ⟨hne, hwhole, hfraction, hlength⟩
            obtain ⟨-, -, hsum⟩ := hnum.sum_eq hi hf
            have hneg : InRange (-(v * 10 ^ k + w)) := by
              have hin := hrange.2
              rw [hsum] at hin ⊢
              unfold InRange at hin ⊢
              omega
            refine ⟨_, finish_value hi hf hk hrange fun _ => hneg, fun d => ?_⟩
            rw [written_iff hparts, ← hsum, Option.some.injEq]
            simp only [decide_eq_true_eq]
            constructor
            · rintro rfl
              refine ⟨hnum, ?_, rfl⟩
              dsimp only
              split
              · exact hneg
              · exact hrange.2
            · rintro ⟨-, -, rfl⟩
              rfl
          · refine ⟨none, finish_overflow hi hf hk hrange, fun d => ⟨nofun, fun h => ?_⟩⟩
            rcases h.sum_inRange hparts hi hf with hin | hlow
            · exact absurd hin hrange
            · exact absurd (.lowest hk hlow) hmis
      · exact absurd (.scale hparts hi (by omega)) hmis

/-! ### Writing and reading back -/

/-- Where nothing overflows the traps change nothing. -/
theorem fromStrExact_of_some {k : Nat} {d : Decimal} (hk : k ≤ 38) (hrange : InRange d.value)
    (h : fromStrExact s k = some d) :
    Trapping.fromStrExact s k = .ok (some d) := by
  have hfinish {negative : Bool} {i : List Char} {f : Option (List Char)}
      (h : fromStrExact.finish k negative i f = some d) :
      Trapping.finish k negative i f = .ok (some d) := by
    rw [finish_def] at h
    obtain ⟨v, hi, h⟩ := Option.bind_eq_some_iff.mp h
    obtain ⟨w, hf, h⟩ := Option.bind_eq_some_iff.mp h
    split at h
    · rename_i hin
      obtain rfl := Option.some.inj h
      exact finish_value hi hf hk hin fun hneg => by simpa [hneg] using hrange
    · cases h
  unfold fromStrExact at h
  unfold Trapping.fromStrExact
  dsimp only at h ⊢
  generalize List.splitOn '.' _ = strings at h ⊢
  match strings with
  | [] => cases h
  | [_] => exact hfinish h
  | [_, _] => exact hfinish h
  | _ :: _ :: _ :: _ => cases h

/-- The text of a decimal is read back as the decimal. -/
def ReadsBack (d : Decimal) : Prop :=
  ∃ text, Trapping.toStringTrimmed d = .ok text ∧
    Trapping.fromStrExact text.toList d.decimals = .ok (some d)

/-- **Round trip.** The scale has to be an `i128`, and the absolute value too. -/
theorem readsBack_iff {d : Decimal} (hd : InRange d.value) :
    ReadsBack d ↔ d.value ≠ -2 ^ 127 ∧ d.decimals ≤ 38 := by
  have habs : InRange |d.value| ↔ d.value ≠ -2 ^ 127 := by
    rw [Int.abs_eq_natAbs]
    unfold InRange at hd ⊢
    omega
  unfold ReadsBack
  simp only [toStringTrimmed_eq_ok, habs]
  constructor
  · rintro ⟨text, ⟨hk, hlow, -⟩, -⟩
    exact ⟨hlow, hk⟩
  · rintro ⟨hlow, hk⟩
    refine ⟨_, ⟨hk, hlow, rfl⟩, fromStrExact_of_some hk hd ?_⟩
    have hself : d.value.natAbs * 10 ^ d.decimals / 10 ^ d.decimals = d.value.natAbs :=
      Nat.mul_div_cancel _ (by positivity)
    have hfits : d.FitsOn d.decimals := by
      refine ⟨Nat.dvd_mul_left _ _, ?_⟩
      rw [hself]
      unfold InRange at hd ⊢
      omega
    rw [fromStrExact_toStringTrimmed, if_pos hfits]
    have hvalue : (if d.value < 0 then -(d.value.natAbs : Int) else d.value.natAbs) = d.value := by
      split <;> omega
    unfold onPlaces
    dsimp only
    rw [hself, hvalue]

/-- **Decimal text.** A decimal is read back from its text unless its scale or its absolute
value is out of range, and a text is read as the number it writes unless it is `Misread`. -/
theorem decimal_text_iff (d : Decimal) (hd : InRange d.value) (s : List Char) (k : Nat) :
    (ReadsBack d ↔ d.value ≠ -2 ^ 127 ∧ d.decimals ≤ 38) ∧
      (Reads k s ↔ ¬ Misread k (trim s)) :=
  ⟨readsBack_iff hd, reads_iff⟩

/-- `-1.50` comes back from its text, and `1.50` reads at two places. -/
theorem decimal_text_plain : ReadsBack ⟨-150, 2⟩ ∧ Reads 2 "1.50".toList := by
  obtain ⟨hround, hreads⟩ := decimal_text_iff ⟨-150, 2⟩ (by decide) "1.50".toList 2
  refine ⟨hround.mpr (by decide), hreads.mpr fun h => ?_⟩
  have hparts : parts (trim "1.50".toList) = some (['1'], some ['5', '0']) := by decide +kernel
  cases h with
  | scale _ _ hk => exact absurd hk (by decide)
  | ownSign hparts' hsign =>
    obtain ⟨rfl, rfl⟩ := Prod.mk.inj (Option.some.inj (hparts.symm.trans hparts'))
    rcases hsign with hsign | ⟨g, hg, hsign⟩
    · exact absurd hsign (by unfold OwnSign; decide)
    · obtain rfl := Option.some.inj (Option.mem_def.mp hg)
      exact absurd hsign (by unfold OwnSign; decide)
  | barePoint hk => exact absurd hk (by decide)
  | lowest _ h =>
    obtain ⟨-, -, hd⟩ := (written_iff hparts).mp h
    exact absurd hd (by decide +kernel)

/-- `--5` is read as five, `1.-5` as ninety-five hundredths, `5.` not at all where no places
are asked for, and the lowest integer is not written. -/
theorem decimal_text_signs : Trapping.fromStrExact "--5".toList 2 = .ok (some ⟨500, 2⟩) ∧
    Trapping.fromStrExact "1.-5".toList 2 = .ok (some ⟨95, 2⟩) ∧
    Trapping.fromStrExact "5.".toList 0 = .ok none ∧ ¬ ReadsBack ⟨-2 ^ 127, 8⟩ ∧
    ¬ Reads 2 "--5".toList ∧ ¬ Reads 2 "1.-5".toList ∧ ¬ Reads 0 "5.".toList := by
  have hwhole : parts (trim "--5".toList) = some (['-', '5'], none) := by decide +kernel
  have hplaces : parts (trim "1.-5".toList) = some (['1'], some ['-', '5']) := by decide +kernel
  have hbare : parts (trim "5.".toList) = some (['5'], some []) := by decide +kernel
  refine ⟨by decide +kernel, by decide +kernel, by decide +kernel, fun h => ?_, ?_, ?_, ?_⟩
  · exact ((readsBack_iff (by decide)).mp h).1 rfl
  · exact (Misread.ownSign hwhole (.inl (.inl rfl)) (v := -5) (w := 0) (by decide) (by decide)
      (by decide)).not_reads
  · exact (Misread.ownSign hplaces (.inr ⟨_, rfl, .inl rfl⟩) (v := 1) (w := -5) (by decide)
      (by decide) (by decide)).not_reads
  · refine (Misread.barePoint rfl (getLast?_of_parts hbare) (d := ⟨5, 0⟩) ?_).not_reads
    exact (written_iff hbare).mpr ⟨⟨by decide, List.forall_mem_singleton.mpr rfl, nofun, by decide⟩,
      by decide, by decide +kernel⟩

end Decimal

end Hypercore
