import Hypercore.Primitives.Decimal
import Mathlib.Data.List.DropRight
import Mathlib.Algebra.Order.Field.Rat
/-!
# Hypercore.Primitives.DecimalText

The text of a decimal, and what is read back from it.

A decimal is written with the places it has and read with the eight places of prices.
It comes back as the same number when eight places are enough and the value fits them
(`Fits`); otherwise it is not read at all.
-/

namespace Hypercore

open Exec Int128

/-! ### Digits -/

/-- The value of a string of digits. -/
def digitsValue (s : List Char) : Nat := Nat.ofDigitChars 10 s 0

theorem parseDigits_of_digits {s : List Char} (hne : s ≠ [])
    (hdigits : ∀ c ∈ s, c.isDigit = true) : Decimal.parseDigits s = some (digitsValue s) := by
  unfold Decimal.parseDigits
  rw [if_pos ⟨hne, List.all_eq_true.mpr hdigits⟩]
  rfl

theorem digitsValue_concat (s : List Char) (c : Char) :
    digitsValue (s ++ [c]) = 10 * digitsValue s + (c.toNat - '0'.toNat) := by
  unfold digitsValue
  rw [Nat.ofDigitChars_append, Nat.ofDigitChars_cons, Nat.ofDigitChars_nil]

theorem digitsValue_append_zeros (s : List Char) (k : Nat) :
    digitsValue (s ++ List.replicate k '0') = digitsValue s * 10 ^ k := by
  unfold digitsValue
  rw [Nat.ofDigitChars_append, Nat.ofDigitChars_replicate_zero, Nat.mul_comm]

theorem digitsValue_zeros_append (s : List Char) (k : Nat) :
    digitsValue (List.replicate k '0' ++ s) = digitsValue s := by
  unfold digitsValue
  rw [Nat.ofDigitChars_append, Nat.ofDigitChars_replicate_zero, Nat.mul_zero]

theorem isDigit_of_mem_replicate {k : Nat} {c : Char} (h : c ∈ List.replicate k '0') :
    c.isDigit = true := by
  rw [List.eq_of_mem_replicate h]
  rfl

/-- The last digit of a string that does not end in zero. -/
theorem not_dvd_digitsValue {s : List Char} (hne : s ≠ []) (hdigit : (s.getLast hne).isDigit = true)
    (hlast : s.getLast hne ≠ '0') : ¬ 10 ∣ digitsValue s := by
  have hsplit : s = s.dropLast ++ [s.getLast hne] := (List.dropLast_append_getLast hne).symm
  have hval : digitsValue s =
      10 * digitsValue s.dropLast + ((s.getLast hne).toNat - '0'.toNat) := by
    conv_lhs => rw [hsplit]
    exact digitsValue_concat _ _
  have hrange := Char.isDigit_iff_toNat.mp hdigit
  have hne0 : (s.getLast hne).toNat ≠ 48 := fun h => hlast (Char.toNat_inj.mp h)
  have hzero : '0'.toNat = 48 := rfl
  have hnine : '9'.toNat = 57 := rfl
  omega

/-- Digits without the zeros they end in, and those zeros. -/
theorem digits_eq_rdropWhile (s : List Char) :
    s = s.rdropWhile (· == '0') ++
      List.replicate (s.length - (s.rdropWhile (· == '0')).length) '0' := by
  have hzeros : s.rtakeWhile (· == '0') =
      List.replicate (s.rtakeWhile (· == '0')).length '0' :=
    List.eq_replicate_iff.mpr
      ⟨rfl, fun c hc => eq_of_beq (List.mem_rtakeWhile_imp (p := (· == '0')) hc)⟩
  have hsplit := List.rdropWhile_append_rtakeWhile (p := (· == '0')) (l := s)
  have hlen := congrArg List.length hsplit
  rw [List.length_append] at hlen
  conv_lhs => rw [← hsplit, hzeros]
  rw [← hlen, Nat.add_sub_cancel_left]

namespace Decimal

/-! ### Writing -/

/-- The digits before the point. -/
def whole (d : Decimal) : List Char := Nat.toDigits 10 (d.value.natAbs / 10 ^ d.decimals)

/-- The digits after the point. -/
def places (d : Decimal) : List Char :=
  let digits := Nat.toDigits 10 (d.value.natAbs % 10 ^ d.decimals)
  List.replicate (d.decimals - digits.length) '0' ++ digits

/-- The digits after the point, without the zeros they end in. -/
def fraction (d : Decimal) : List Char := d.places.rdropWhile (· == '0')

/-- The sign that is written. -/
def sign (d : Decimal) : List Char := if d.value < 0 then ['-'] else []

variable {c : Char} {d : Decimal} {k : Nat}

theorem isDigit_of_mem_toDigits {n : Nat} (h : c ∈ Nat.toDigits 10 n) :
    c.isDigit = true := Nat.isDigit_of_mem_toDigits (by decide) (by decide) h

theorem isDigit_of_mem_places (h : c ∈ d.places) : c.isDigit = true := by
  obtain h | h := List.mem_append.mp h
  · exact isDigit_of_mem_replicate h
  · exact isDigit_of_mem_toDigits h

theorem isDigit_of_mem_fraction (h : c ∈ d.fraction) :
    c.isDigit = true :=
  isDigit_of_mem_places (List.IsPrefix.subset (List.rdropWhile_prefix _ _) h)

/-- There are as many places as the decimal has, and one when it has none. -/
theorem length_places (d : Decimal) :
    d.places.length = if d.decimals = 0 then 1 else d.decimals := by
  have hpos : 0 < (Nat.toDigits 10 (d.value.natAbs % 10 ^ d.decimals)).length :=
    Nat.length_toDigits_pos
  have hlt : d.value.natAbs % 10 ^ d.decimals < 10 ^ d.decimals := Nat.mod_lt _ (by positivity)
  unfold places
  rw [List.length_append, List.length_replicate]
  by_cases h0 : d.decimals = 0
  · have hlen := (Nat.length_toDigits_le_iff (b := 10) (k := 1) (by decide) Nat.one_pos).mpr
      (hlt.trans_le (Nat.pow_le_pow_right (by decide) (by omega)))
    rw [if_pos h0]
    omega
  · have hlen := (Nat.length_toDigits_le_iff (b := 10) (by decide) (Nat.pos_of_ne_zero h0)).mpr hlt
    rw [if_neg h0]
    omega

theorem digitsValue_places (d : Decimal) :
    digitsValue d.places = d.value.natAbs % 10 ^ d.decimals := by
  unfold places
  rw [digitsValue_zeros_append]
  exact Nat.ofDigitChars_ten_toDigits

/-- The places are the fraction and the zeros that were dropped. -/
theorem digitsValue_fraction (d : Decimal) :
    digitsValue d.fraction * 10 ^ (d.places.length - d.fraction.length) =
      d.value.natAbs % 10 ^ d.decimals := by
  rw [← digitsValue_places, ← digitsValue_append_zeros]
  exact congrArg digitsValue (digits_eq_rdropWhile d.places).symm

theorem length_fraction_le (d : Decimal) : d.fraction.length ≤ d.places.length := by
  exact (List.rdropWhile_prefix _ _).length_le

/-- What is dropped from the end of a string that goes on with other characters. -/
theorem rdropWhile_append (p : Char → Bool) (x y : List Char) :
    (x ++ y).rdropWhile p =
      if y.rdropWhile p = [] then x.rdropWhile p else x ++ y.rdropWhile p := by
  unfold List.rdropWhile
  rw [List.reverse_append, List.dropWhile_append]
  by_cases h : (y.reverse.dropWhile p) = []
  · simp [h]
  · simp [h]

/-- **Writing.** Sign, digits before the point and, when there is any, the fraction. -/
theorem toList_toStringTrimmed (d : Decimal) :
    d.toStringTrimmed.toList =
      d.sign ++ d.whole ++ if d.fraction = [] then [] else '.' :: d.fraction := by
  have hfull : d.toStringFull.toList = (d.sign ++ d.whole ++ ['.']) ++ d.places := by
    unfold toStringFull sign whole places
    by_cases hneg : d.value < 0 <;> simp [hneg, Nat.repr_eq_ofList_toDigits]
  have htrim : d.toStringTrimmed.toList =
      (d.toStringFull.toList.rdropWhile (· == '0')).rdropWhile (· == '.') := by
    unfold toStringTrimmed
    rw [String.toList_ofList]
    rfl
  have hwhole : ∀ hne, (d.sign ++ d.whole).getLast hne ≠ '.' := by
    intro hne h
    have hlast : (d.sign ++ d.whole).getLast hne = d.whole.getLast Nat.toDigits_ne_nil :=
      List.getLast_append_of_ne_nil _ _
    have hdigit := isDigit_of_mem_toDigits (List.getLast_mem (l := d.whole) Nat.toDigits_ne_nil)
    rw [← hlast, h] at hdigit
    exact absurd hdigit (by decide)
  have hplaces : d.places.rdropWhile (· == '0') = d.fraction := rfl
  rw [htrim, hfull, rdropWhile_append, hplaces]
  by_cases hfraction : d.fraction = []
  · rw [if_pos hfraction, if_pos hfraction, List.append_nil]
    rw [List.rdropWhile_concat_neg _ _ _ (by decide), List.rdropWhile_concat_pos _ _ _ (by decide)]
    exact List.rdropWhile_eq_self_iff.mpr fun hne => by simpa using hwhole hne
  · have hself : d.fraction.rdropWhile (· == '.') = d.fraction := by
      refine List.rdropWhile_eq_self_iff.mpr fun hne h => ?_
      have hdigit := isDigit_of_mem_fraction (List.getLast_mem hne)
      rw [eq_of_beq h] at hdigit
      exact absurd hdigit (by decide)
    rw [if_neg hfraction, if_neg hfraction, rdropWhile_append, hself, if_neg hfraction,
      List.append_assoc, List.singleton_append]

/-! ### Reading -/

theorem isWhitespace_of_isDigit (h : c.isDigit = true) : isWhitespace c = false := by
  have hrange := Char.isDigit_iff_toNat.mp h
  have hzero : '0'.toNat = 48 := rfl
  have hnine : '9'.toNat = 57 := rfl
  unfold isWhitespace
  simp only [Bool.or_eq_false_iff, Bool.and_eq_false_iff, decide_eq_false_iff_not,
    beq_eq_false_iff_ne]
  omega

theorem trim_eq_self {s : List Char} (h : ∀ c ∈ s, isWhitespace c = false) : trim s = s := by
  have hdrop {l : List Char} (hl : ∀ c ∈ l, isWhitespace c = false) :
      l.dropWhile isWhitespace = l := by
    cases l with
    | nil => rfl
    | cons c l => exact List.dropWhile_cons_of_neg (by simp [hl c (List.mem_cons_self ..)])
  unfold trim
  rw [hdrop h, hdrop fun c hc => h c (List.mem_reverse.mp hc), List.reverse_reverse]

/-- Digits without a sign parse to their value, if it is in range. -/
theorem parseI128_of_digits {s : List Char} (hne : s ≠ []) (hdigits : ∀ c ∈ s, c.isDigit = true) :
    parseI128 s = (some (digitsValue s : Int)).filter fun v => InRange v := by
  have hparse := parseDigits_of_digits hne hdigits
  have hneg : ∀ rest, s ≠ '-' :: rest := by
    rintro rest rfl
    exact absurd (hdigits '-' (List.mem_cons_self ..)) (by decide)
  have hplus : ∀ rest, s ≠ '+' :: rest := by
    rintro rest rfl
    exact absurd (hdigits '+' (List.mem_cons_self ..)) (by decide)
  unfold parseI128
  split
  · exact absurd rfl (hneg _)
  · exact absurd rfl (hplus _)
  · rw [hparse]
    rfl

/-- The fraction has no more places than the decimal. -/
theorem fraction_spec (d : Decimal) : d.fraction.length ≤ d.decimals ∧
    digitsValue d.fraction * 10 ^ (d.decimals - d.fraction.length) =
      d.value.natAbs % 10 ^ d.decimals := by
  have hle := length_fraction_le d
  have hval := digitsValue_fraction d
  rw [length_places] at hle hval
  by_cases h0 : d.decimals = 0
  · rw [h0, pow_zero, Nat.mod_one] at hval ⊢
    have hzero : digitsValue d.fraction = 0 := by
      obtain h | h := Nat.mul_eq_zero.mp hval
      · exact h
      · exact absurd h (by positivity)
    have hnil : d.fraction = [] := by
      by_contra hne
      have hdigit := isDigit_of_mem_fraction (List.getLast_mem hne)
      have hlast := List.rdropWhile_last_not (· == '0') d.places hne
      refine not_dvd_digitsValue hne hdigit (fun h => hlast (beq_iff_eq.mpr h)) ?_
      rw [hzero]
      exact dvd_zero 10
    rw [hnil]
    exact ⟨le_rfl, rfl⟩
  · rw [if_neg h0] at hle hval
    exact ⟨hle, hval⟩

/-- A decimal fits a number of places: on them it is an integer, in range. -/
def FitsOn (d : Decimal) (k : Nat) : Prop :=
  10 ^ d.decimals ∣ d.value.natAbs * 10 ^ k ∧
    InRange ((d.value.natAbs * 10 ^ k / 10 ^ d.decimals : Nat) : Int)

instance (d : Decimal) (k : Nat) : Decidable (d.FitsOn k) := inferInstanceAs (Decidable (_ ∧ _))

/-- The two parts of the text, on more places than the fraction has. -/
theorem parts_eq (hle : d.fraction.length ≤ k) :
    (d.value.natAbs / 10 ^ d.decimals * 10 ^ k +
      digitsValue d.fraction * 10 ^ (k - d.fraction.length)) * 10 ^ d.decimals =
      d.value.natAbs * 10 ^ k := by
  obtain ⟨hplaces, hval⟩ := fraction_spec d
  have hpow : 10 ^ (k - d.fraction.length) * 10 ^ d.decimals =
      10 ^ (d.decimals - d.fraction.length) * 10 ^ k := by
    rw [← pow_add, ← pow_add]
    exact congrArg _ (by omega)
  have hdiv := Nat.div_add_mod d.value.natAbs (10 ^ d.decimals)
  calc (d.value.natAbs / 10 ^ d.decimals * 10 ^ k +
        digitsValue d.fraction * 10 ^ (k - d.fraction.length)) * 10 ^ d.decimals
      = 10 ^ d.decimals * (d.value.natAbs / 10 ^ d.decimals) * 10 ^ k +
          digitsValue d.fraction * (10 ^ (k - d.fraction.length) * 10 ^ d.decimals) := by ring
    _ = 10 ^ d.decimals * (d.value.natAbs / 10 ^ d.decimals) * 10 ^ k +
          digitsValue d.fraction * 10 ^ (d.decimals - d.fraction.length) * 10 ^ k := by
        rw [hpow]
        ring
    _ = d.value.natAbs * 10 ^ k := by rw [hval, ← Nat.add_mul, hdiv]

/-- The text of a decimal, taken apart. -/
theorem text_parts (d : Decimal) :
    d.toStringTrimmed.toList.takeWhile (· == '-') = d.sign ∧
    (d.toStringTrimmed.toList.dropWhile (· == '-')).takeWhile (·.isDigit) = d.whole ∧
    ((d.toStringTrimmed.toList.dropWhile (· == '-')).dropWhile (·.isDigit)).tail = d.fraction := by
  have hdigits : ∀ c ∈ d.whole, c.isDigit = true := fun c hc => isDigit_of_mem_toDigits hc
  obtain ⟨c, rest, hwhole⟩ := List.exists_cons_of_ne_nil
    (Nat.toDigits_ne_nil : Nat.toDigits 10 (d.value.natAbs / 10 ^ d.decimals) ≠ [])
  have hcons : d.whole = c :: rest := hwhole
  have hminus : (c == '-') = false := by
    rw [beq_eq_false_iff_ne]
    rintro rfl
    exact absurd (hdigits '-' (by rw [hcons]; exact .head _)) (by decide)
  have hsign : ∀ c ∈ d.sign, (c == '-') = true := by
    intro c hc
    unfold sign at hc
    split at hc
    · simpa using hc
    · cases hc
  rw [toList_toStringTrimmed, List.append_assoc, List.takeWhile_append_of_pos hsign,
    List.dropWhile_append_of_pos hsign]
  have hafter : (if d.fraction = [] then [] else '.' :: d.fraction).takeWhile (·.isDigit) = [] ∧
      ((if d.fraction = [] then [] else '.' :: d.fraction).dropWhile (·.isDigit)).tail =
        d.fraction := by
    have hpoint : ('.' : Char).isDigit = false := by decide
    split
    · rename_i hnil
      exact ⟨rfl, hnil.symm⟩
    · simp [hpoint]
  have htake : (d.whole ++ if d.fraction = [] then [] else '.' :: d.fraction).takeWhile
      (· == '-') = [] := by simp [hcons, hminus]
  have hdrop : (d.whole ++ if d.fraction = [] then [] else '.' :: d.fraction).dropWhile
      (· == '-') = d.whole ++ if d.fraction = [] then [] else '.' :: d.fraction := by
    simp [hcons, hminus]
  rw [htake, hdrop, List.append_nil, List.takeWhile_append_of_pos hdigits,
    List.dropWhile_append_of_pos hdigits, hafter.1, hafter.2, List.append_nil]
  exact ⟨rfl, rfl, rfl⟩

/-- One text, one number. -/
theorem toStringTrimmed_inj {d' : Decimal} (h : d.toStringTrimmed = d'.toStringTrimmed) :
    d.value * 10 ^ d'.decimals = d'.value * 10 ^ d.decimals := by
  obtain ⟨hsign, hwhole, hfraction⟩ := text_parts d
  obtain ⟨hsign', hwhole', hfraction'⟩ := text_parts d'
  rw [h] at hsign hwhole hfraction
  have hsame : d.sign = d'.sign := hsign.symm.trans hsign'
  have hdigits := (parts_eq (d := d) (k := d.fraction.length) le_rfl)
  have hdigits' := (parts_eq (d := d') (k := d.fraction.length)
    (by rw [← hfraction, hfraction']))
  have hw : d.value.natAbs / 10 ^ d.decimals = d'.value.natAbs / 10 ^ d'.decimals := by
    have hvalue : ∀ d : Decimal, digitsValue d.whole = d.value.natAbs / 10 ^ d.decimals :=
      fun d => Nat.ofDigitChars_ten_toDigits
    rw [← hvalue, ← hvalue, ← hwhole, hwhole']
  rw [hfraction'.symm.trans hfraction, ← hw] at hdigits'
  have habs : d.value.natAbs * 10 ^ d'.decimals = d'.value.natAbs * 10 ^ d.decimals := by
    refine Nat.eq_of_mul_eq_mul_right (show 0 < 10 ^ d.fraction.length by positivity) ?_
    rw [Nat.mul_right_comm, ← hdigits, Nat.mul_right_comm d'.value.natAbs, ← hdigits']
    ring
  have hneg : d.value < 0 ↔ d'.value < 0 := by
    unfold sign at hsame
    by_cases h0 : d.value < 0 <;> by_cases h0' : d'.value < 0 <;> simp [h0, h0'] at hsame ⊢
  have habs' : (d.value.natAbs : Int) * 10 ^ d'.decimals =
      d'.value.natAbs * 10 ^ d.decimals := by exact_mod_cast habs
  by_cases h0 : d.value < 0
  · rw [show d.value = -d.value.natAbs by omega, show d'.value = -d'.value.natAbs by omega,
      neg_mul, neg_mul, habs']
  · rw [show d.value = d.value.natAbs by omega, show d'.value = d'.value.natAbs by omega, habs']

/-- No text is empty. -/
theorem toStringTrimmed_ne_empty (d : Decimal) : d.toStringTrimmed ≠ "" := by
  intro h
  have hlist := toList_toStringTrimmed d
  rw [h] at hlist
  have hwhole : d.whole ≠ [] :=
    (Nat.toDigits_ne_nil : Nat.toDigits 10 (d.value.natAbs / 10 ^ d.decimals) ≠ [])
  simp [hwhole] at hlist

/-- The text of nothing, on eight places. -/
theorem toStringTrimmed_eq_zero (h : d.decimals = 8) :
    d.toStringTrimmed = "0" ↔ d.value = 0 := by
  have hzero : (⟨0, 8⟩ : Decimal).toStringTrimmed = "0" := by decide
  constructor
  · intro htext
    have hsame := toStringTrimmed_inj (htext.trans hzero.symm)
    dsimp only at hsame
    omega
  · intro hv
    rw [← hzero]
    congr 1
    exact congrArg₂ Decimal.mk hv h

/-- The fraction fits some places exactly when the decimal is an integer on them. -/
theorem length_fraction_le_iff :
    d.fraction.length ≤ k ↔ 10 ^ d.decimals ∣ d.value.natAbs * 10 ^ k := by
  refine ⟨fun hle => Dvd.intro_left _ (parts_eq hle), fun hdvd => ?_⟩
  by_contra hlt
  obtain ⟨hplaces, hval⟩ := fraction_spec d
  have hne : d.fraction ≠ [] := by
    intro h
    rw [h] at hlt
    exact hlt (Nat.zero_le k)
  -- only the part after the point has to be divided
  have hrest : 10 ^ d.decimals ∣ d.value.natAbs % 10 ^ d.decimals * 10 ^ k := by
    have hdiv := Nat.div_add_mod d.value.natAbs (10 ^ d.decimals)
    rw [← hdiv, Nat.add_mul] at hdvd
    exact (Nat.dvd_add_right ⟨_, Nat.mul_assoc _ _ _⟩).mp hdvd
  rw [← hval, Nat.mul_assoc, ← pow_add] at hrest
  have hsplit : d.decimals = (d.fraction.length - k) + (d.decimals - d.fraction.length + k) := by
    omega
  have hlow : 10 ^ (d.fraction.length - k) ∣ digitsValue d.fraction := by
    conv_lhs at hrest => rw [hsplit]
    rw [pow_add] at hrest
    exact Nat.dvd_of_mul_dvd_mul_right (by positivity) hrest
  have hten : 10 ∣ digitsValue d.fraction :=
    (dvd_pow_self 10 (by omega : d.fraction.length - k ≠ 0)).trans hlow
  have hdigit := isDigit_of_mem_fraction (List.getLast_mem hne)
  have hlast := List.rdropWhile_last_not (· == '0') d.places hne
  exact not_dvd_digitsValue hne hdigit (fun h => hlast (beq_iff_eq.mpr h)) hten

/-- What is read from the text of a decimal with `k` places. -/
def onPlaces (d : Decimal) (k : Nat) : Decimal :=
  let v : Int := (d.value.natAbs * 10 ^ k / 10 ^ d.decimals : Nat)
  ⟨if d.value < 0 then -v else v, k⟩

/-- The value of the digits after the point. -/
def decimalPart (k : Nat) : Option (List Char) → Option Int
  | none => some 0
  | some ds =>
    if ds.length > k then none else parseI128 (ds ++ List.replicate (k - ds.length) '0')

theorem finish_def (k : Nat) (negative : Bool) (integerStr : List Char)
    (decimalStr : Option (List Char)) :
    fromStrExact.finish k negative integerStr decimalStr =
      (parseI128 integerStr).bind fun i => (decimalPart k decimalStr).bind fun f =>
        if InRange (i * 10 ^ k) ∧ InRange (i * 10 ^ k + f) then
          some ⟨if negative then -(i * 10 ^ k + f) else i * 10 ^ k + f, k⟩
        else none := by
  unfold fromStrExact.finish decimalPart
  cases decimalStr with
  | none => rfl
  | some ds =>
    by_cases h : ds.length > k
    · simp only [if_pos h]
      rfl
    · simp only [if_neg h]
      rfl

/-- What the two parts of a text make, when they are numbers without a sign. -/
theorem finish_eq {n m : Nat} {negative : Bool} {integerStr : List Char}
    {decimalStr : Option (List Char)}
    (hinteger : parseI128 integerStr = (some (n : Int)).filter fun v => InRange v)
    (hdecimal : decimalPart k decimalStr = (some (m : Int)).filter fun v => InRange v) :
    fromStrExact.finish k negative integerStr decimalStr =
      if InRange ((n * 10 ^ k + m : Nat) : Int) then
        some
          ⟨if negative then -((n * 10 ^ k + m : Nat) : Int) else ((n * 10 ^ k + m : Nat) : Int), k⟩
      else none := by
  have hpos : 0 < 10 ^ k := by positivity
  have hn : n ≤ n * 10 ^ k := Nat.le_mul_of_pos_right n hpos
  have hwhole : (n : Int) * 10 ^ k = ((n * 10 ^ k : Nat) : Int) := by push_cast; rfl
  have hscaled : (n : Int) * 10 ^ k + m = ((n * 10 ^ k + m : Nat) : Int) := by push_cast; rfl
  have hfilter {v : Int} (hv : InRange v) : (some v).filter (fun v => InRange v) = some v := by
    simp [hv]
  have hfail {v : Int} (hv : ¬ InRange v) : (some v).filter (fun v => InRange v) = none := by
    simp [hv]
  rw [finish_def, hinteger, hdecimal]
  by_cases hrange : InRange ((n * 10 ^ k + m : Nat) : Int)
  · have hmax := hrange.2
    have hrn : InRange (n : Int) := ⟨by omega, by omega⟩
    have hrm : InRange (m : Int) := ⟨by omega, by omega⟩
    have hrs : InRange ((n : Int) * 10 ^ k) := by
      rw [hwhole]
      exact ⟨by omega, by omega⟩
    rw [hfilter hrn, hfilter hrm, if_pos hrange, Option.bind_some, Option.bind_some,
      if_pos ⟨hrs, by rwa [hscaled]⟩, hscaled]
  · rw [if_neg hrange]
    by_cases hrn : InRange (n : Int)
    · by_cases hrm : InRange (m : Int)
      · rw [hfilter hrn, hfilter hrm, Option.bind_some, Option.bind_some]
        exact if_neg fun h => hrange (by rw [← hscaled]; exact h.2)
      · rw [hfilter hrn, hfail hrm]
        rfl
    · rw [hfail hrn]
      rfl

/-- Reading a text: the sign is taken off, and the rest is split at the point. -/
theorem fromStrExact_text (d : Decimal) (k : Nat) :
    fromStrExact d.toStringTrimmed.toList k =
      fromStrExact.finish k (decide (d.value < 0)) d.whole
        (if d.fraction = [] then none else some d.fraction) := by
  have hwhole : ∀ c ∈ d.whole, c.isDigit = true := fun c hc => isDigit_of_mem_toDigits hc
  have hfraction : ∀ c ∈ d.fraction, c.isDigit = true := fun c hc => isDigit_of_mem_fraction hc
  have hpoint {s : List Char} (hs : ∀ c ∈ s, c.isDigit = true) : '.' ∉ s := fun h =>
    absurd (hs '.' h) (by decide)
  have hsplit : (d.whole ++ if d.fraction = [] then [] else '.' :: d.fraction).splitOn '.' =
      if d.fraction = [] then [d.whole] else [d.whole, d.fraction] := by
    by_cases hnil : d.fraction = []
    · rw [if_pos hnil, if_pos hnil, List.append_nil]
      exact List.splitOn_eq_singleton (hpoint hwhole)
    · rw [if_neg hnil, if_neg hnil, List.splitOn_append_cons_self_of_not_mem (hpoint hwhole),
        List.splitOn_eq_singleton (hpoint hfraction)]
  have hspace : ∀ c ∈ d.toStringTrimmed.toList, isWhitespace c = false := by
    intro c hc
    rw [toList_toStringTrimmed, List.mem_append, List.mem_append] at hc
    obtain (hc | hc) | hc := hc
    · unfold sign at hc
      split at hc
      · rw [List.mem_singleton.mp hc]
        decide
      · cases hc
    · exact isWhitespace_of_isDigit (hwhole c hc)
    · split at hc
      · cases hc
      · obtain rfl | hc := List.mem_cons.mp hc
        · decide
        · exact isWhitespace_of_isDigit (hfraction c hc)
  obtain ⟨c, rest, hcons⟩ := List.exists_cons_of_ne_nil
    (Nat.toDigits_ne_nil : Nat.toDigits 10 (d.value.natAbs / 10 ^ d.decimals) ≠ [])
  have hwholecons : d.whole = c :: rest := hcons
  have hminus : c ≠ '-' := by
    rintro rfl
    exact absurd (hwhole '-' (by rw [hwholecons]; exact List.mem_cons_self ..)) (by decide)
  unfold fromStrExact
  rw [trim_eq_self hspace, toList_toStringTrimmed]
  by_cases hneg : d.value < 0
  · have hsign : d.sign = ['-'] := if_pos hneg
    simp only [hsign, List.cons_append, List.nil_append, List.head?_cons, List.tail_cons,
      decide_true, if_true, hsplit, decide_eq_true hneg]
    by_cases hnil : d.fraction = [] <;> simp [hnil]
  · have hsign : d.sign = [] := if_neg hneg
    have hhead :
        (d.whole ++ if d.fraction = [] then [] else '.' :: d.fraction).head? ≠ some '-' := by
      rw [hwholecons, List.cons_append, List.head?_cons]
      exact fun h => hminus (Option.some.inj h)
    simp only [hsign, List.nil_append, hhead, decide_false, hsplit, decide_eq_false hneg, if_false]
    by_cases hnil : d.fraction = [] <;> simp [hnil]

/-- **Round trip.** The text of a decimal reads back, on `k` places, exactly when it fits them. -/
theorem fromStrExact_toStringTrimmed (d : Decimal) (k : Nat) :
    fromStrExact d.toStringTrimmed.toList k = if d.FitsOn k then some (d.onPlaces k) else none := by
  have hwhole : ∀ c ∈ d.whole, c.isDigit = true := fun c hc => isDigit_of_mem_toDigits hc
  have hinteger : parseI128 d.whole =
      (some ((d.value.natAbs / 10 ^ d.decimals : Nat) : Int)).filter fun v => InRange v := by
    have hval : digitsValue d.whole = d.value.natAbs / 10 ^ d.decimals :=
      Nat.ofDigitChars_ten_toDigits
    rw [parseI128_of_digits (s := d.whole) Nat.toDigits_ne_nil hwhole, hval]
  rw [fromStrExact_text]
  by_cases hle : d.fraction.length ≤ k
  · have hdecimal : decimalPart k (if d.fraction = [] then none else some d.fraction) =
        (some ((digitsValue d.fraction * 10 ^ (k - d.fraction.length) : Nat) : Int)).filter
          fun v => InRange v := by
      by_cases hnil : d.fraction = []
      · rw [if_pos hnil, hnil]
        have hzero : digitsValue [] = 0 := rfl
        rw [hzero, Nat.zero_mul]
        rfl
      · rw [if_neg hnil]
        have hdigits : ∀ c ∈ d.fraction ++ List.replicate (k - d.fraction.length) '0',
            c.isDigit = true := by
          intro c hc
          obtain hc | hc := List.mem_append.mp hc
          · exact isDigit_of_mem_fraction hc
          · exact isDigit_of_mem_replicate hc
        refine (if_neg (Nat.not_lt.mpr hle)).trans ?_
        rw [parseI128_of_digits (List.append_ne_nil_of_left_ne_nil hnil _) hdigits,
          digitsValue_append_zeros]
    have hparts : d.value.natAbs / 10 ^ d.decimals * 10 ^ k +
        digitsValue d.fraction * 10 ^ (k - d.fraction.length) =
          d.value.natAbs * 10 ^ k / 10 ^ d.decimals :=
      (Nat.div_eq_of_eq_mul_left (by positivity) (parts_eq hle).symm).symm
    have hdvd := length_fraction_le_iff.mp hle
    rw [finish_eq hinteger hdecimal, hparts]
    by_cases hrange : InRange ((d.value.natAbs * 10 ^ k / 10 ^ d.decimals : Nat) : Int)
    · have hfits : d.FitsOn k := ⟨hdvd, hrange⟩
      rw [if_pos hrange]
      refine Eq.trans ?_ (if_pos hfits).symm
      simp only [onPlaces, decide_eq_true_eq]
    · rw [if_neg hrange, if_neg fun h => hrange h.2]
  · have hnil : d.fraction ≠ [] := fun h => hle (by rw [h]; exact Nat.zero_le k)
    have hdecimal : decimalPart k (some d.fraction) = none := if_pos (Nat.not_le.mp hle)
    rw [if_neg hnil, finish_def, hdecimal, if_neg fun h => hle (length_fraction_le_iff.mpr h.1)]
    cases parseI128 d.whole <;> rfl

/-- The number a decimal stands for. -/
def toRat (d : Decimal) : ℚ := d.value / 10 ^ d.decimals

/-- What is read back is the same number. -/
theorem toRat_onPlaces (h : d.FitsOn k) :
    (d.onPlaces k).toRat = d.toRat := by
  obtain ⟨q, hq⟩ := h.1
  have hdiv : d.value.natAbs * 10 ^ k / 10 ^ d.decimals = q := by
    rw [hq]
    exact Nat.mul_div_cancel_left q (by positivity)
  have hcast : (d.value.natAbs : ℚ) * 10 ^ k = 10 ^ d.decimals * q := by exact_mod_cast hq
  unfold onPlaces toRat
  rw [hdiv]
  rw [div_eq_div_iff (by positivity) (by positivity)]
  by_cases hneg : d.value < 0
  · have habs : (d.value : ℚ) = -(d.value.natAbs : ℚ) := by
      have hvalue : d.value = -(d.value.natAbs : Int) := by omega
      conv_lhs => rw [hvalue]
      rw [Int.cast_neg, Int.cast_natCast]
    simp only [if_pos hneg]
    rw [habs]
    push_cast
    linarith
  · have habs : (d.value : ℚ) = (d.value.natAbs : ℚ) := by
      have hvalue : d.value = (d.value.natAbs : Int) := by omega
      conv_lhs => rw [hvalue]
      rw [Int.cast_natCast]
    simp only [if_neg hneg]
    rw [habs]
    push_cast
    linarith

end Decimal

end Hypercore
