import Hypercore.Primitives.Keccak
import Mathlib.Data.List.Basic
/-!
# Hypercore.Primitives.Text

Strings of requests: lower case and hexadecimal.
-/

namespace Hypercore

/-- `to_lowercase`, as far as it can give ASCII letters: the Kelvin sign becomes a `k`. -/
def toLowercase (text : String) : String :=
  String.ofList (text.toList.map fun c => if c = Char.ofNat 0x212A then 'k' else c.toLower)

/-- `as_bytes`. -/
def utf8Bytes (text : String) : List UInt8 := text.toByteArray.data.toList

/-- The value of a hex digit. -/
def hexDigit (c : Char) : Option Nat :=
  if '0' ≤ c ∧ c ≤ '9' then some (c.toNat - '0'.toNat)
  else if 'a' ≤ c ∧ c ≤ 'f' then some (c.toNat - 'a'.toNat + 10)
  else if 'A' ≤ c ∧ c ≤ 'F' then some (c.toNat - 'A'.toNat + 10)
  else none

/-- `strip_prefix("0x").unwrap_or(..)`: a prefix in capitals stays. -/
def stripHexPrefix (text : String) : List Char :=
  match text.toList with
  | '0' :: 'x' :: rest => rest
  | all => all

/-- `hex`: two digits for each byte, the high one first. -/
class HexCrate where
  encode : List UInt8 → String
  decode : List Char → Option (List UInt8)
  decode_encode (bytes : List UInt8) : decode (encode bytes).toList = some bytes
  decode_nil : decode [] = some []
  decode_cons {high low : Char} {h l : Nat} (rest : List Char) (hhigh : hexDigit high = some h)
    (hlow : hexDigit low = some l) :
    decode (high :: low :: rest) = (decode rest).map (UInt8.ofNat (16 * h + l) :: ·)

/-- `hex::encode`. -/
def hexEncode [HexCrate] (bytes : List UInt8) : String := HexCrate.encode bytes

/-- `hex::decode`. -/
def hexDecode [HexCrate] (text : List Char) : Option (List UInt8) := HexCrate.decode text

theorem hexDecode_hexEncode [HexCrate] (bytes : List UInt8) :
    hexDecode (hexEncode bytes).toList = some bytes := HexCrate.decode_encode bytes

theorem prefixed_hexEncode_injective [HexCrate] :
    Function.Injective fun bytes : List UInt8 => "0x" ++ hexEncode bytes := by
  intro b c h
  have htext : hexEncode b = hexEncode c := by simpa using h
  exact Option.some.inj ((hexDecode_hexEncode b).symm.trans (htext ▸ hexDecode_hexEncode c))

/-- Hex digits are below sixteen and take one byte. -/
theorem hexDigit_eq_some {c : Char} {d : Nat} (h : hexDigit c = some d) :
    d < 16 ∧ c.utf8Size = 1 := by
  have hsize (hi : Char) (hc : c ≤ hi) (hascii : hi.val ≤ 0x7f) : c.utf8Size = 1 := by
    unfold Char.utf8Size
    exact if_pos (UInt32.le_trans hc hascii)
  have hle {a b : Char} (hab : a ≤ b) : a.toNat ≤ b.toNat := UInt32.le_iff_toNat_le.mp hab
  unfold hexDigit at h
  split_ifs at h with hc hc hc <;> cases h <;> have h1 := hle hc.1 <;> have h2 := hle hc.2 <;>
    exact ⟨by simp at h1 h2 ⊢; omega, hsize _ hc.2 (by decide)⟩

/-- A string of hex digits has as many bytes as digits. -/
theorem utf8ByteSize_of_hex {hex : List Char} {digits : List Nat}
    (h : hex.mapM hexDigit = some digits) : (String.ofList hex).utf8ByteSize = hex.length := by
  induction hex generalizing digits with
  | nil => rfl
  | cons c hex ih =>
    rw [List.mapM_cons] at h
    obtain ⟨d, hd, h⟩ := Option.bind_eq_some_iff.mp h
    obtain ⟨ds, hds, -⟩ := Option.bind_eq_some_iff.mp h
    have hcons : String.ofList (c :: hex) = String.singleton c ++ String.ofList hex := by
      apply String.toList_inj.mp
      simp
    rw [hcons, String.utf8ByteSize_append, ih hds, String.utf8ByteSize_singleton,
      (hexDigit_eq_some hd).2, List.length_cons, Nat.add_comm]

/-- An even number of hex digits decodes to bytes of the same number. -/
theorem hexDecode_of_digits [HexCrate] {n : Nat} {hex : List Char} {digits : List Nat}
    (h : hex.mapM hexDigit = some digits) (hlen : hex.length = 2 * n) :
    ∃ bytes, hexDecode hex = some bytes ∧ bytes.length = n ∧ ∀ acc,
      digits.foldl (fun n d => 16 * n + d) acc =
        bytes.foldl (fun n b => 256 * n + b.toNat) acc := by
  induction n generalizing hex digits with
  | zero =>
    obtain rfl := List.eq_nil_of_length_eq_zero hlen
    cases h
    exact ⟨[], HexCrate.decode_nil, rfl, fun _ => rfl⟩
  | succ n ih =>
    match hex, hlen with
    | high :: low :: hex, hlen =>
      rw [List.mapM_cons, List.mapM_cons] at h
      obtain ⟨dh, hdh, h⟩ := Option.bind_eq_some_iff.mp h
      obtain ⟨ds, hds, h⟩ := Option.bind_eq_some_iff.mp h
      cases h
      obtain ⟨dl, hdl, hds⟩ := Option.bind_eq_some_iff.mp hds
      obtain ⟨ds, hrest, h⟩ := Option.bind_eq_some_iff.mp hds
      cases h
      obtain ⟨bytes, hbytes, hblen, hfold⟩ := ih hrest (by simp at hlen; omega)
      refine ⟨UInt8.ofNat (16 * dh + dl) :: bytes, ?_, by simp [hblen], fun acc => ?_⟩
      · unfold hexDecode at hbytes ⊢
        rw [HexCrate.decode_cons hex hdh hdl, hbytes]
        rfl
      · have hhigh := (hexDigit_eq_some hdh).1
        have hlow := (hexDigit_eq_some hdl).1
        have hbyte : (UInt8.ofNat (16 * dh + dl)).toNat = 16 * dh + dl := by
          rw [UInt8.toNat_ofNat']
          omega
        have hacc : 16 * (16 * acc + dh) + dl = 256 * acc + (16 * dh + dl) := by omega
        rw [List.foldl_cons, List.foldl_cons, List.foldl_cons, hfold, hbyte, hacc]

/-! ### Digits of either case -/

theorem hexDigit_digitChar : ∀ d < 16, hexDigit (Nat.digitChar d) = some d := by decide

namespace Hex

/-- Lower-case digits. -/
def encode (bytes : List UInt8) : String :=
  String.ofList
    (bytes.flatMap fun b => [Nat.digitChar (b.toNat / 16), Nat.digitChar (b.toNat % 16)])

/-- An even number of digits. -/
def decode : List Char → Option (List UInt8)
  | [] => some []
  | [_] => none
  | high :: low :: rest => do
    let high ← hexDigit high
    let low ← hexDigit low
    let bytes ← decode rest
    return UInt8.ofNat (16 * high + low) :: bytes

theorem decode_cons {high low : Char} {h l : Nat} (rest : List Char)
    (hhigh : hexDigit high = some h) (hlow : hexDigit low = some l) :
    decode (high :: low :: rest) = (decode rest).map (UInt8.ofNat (16 * h + l) :: ·) := by
  rw [decode, hhigh, hlow]
  cases decode rest <;> rfl

/-- **Round trip.** Bytes come back from their digits. -/
theorem decode_encode (bytes : List UInt8) : decode (encode bytes).toList = some bytes := by
  unfold encode
  rw [String.toList_ofList]
  induction bytes with
  | nil => rfl
  | cons b bytes ih =>
    have hlt := b.toNat_lt
    have hhigh := hexDigit_digitChar (b.toNat / 16) (by omega)
    have hlow := hexDigit_digitChar (b.toNat % 16) (by omega)
    have hbyte : UInt8.ofNat (16 * (b.toNat / 16) + b.toNat % 16) = b := by
      rw [Nat.div_add_mod, UInt8.ofNat_toNat]
    rw [List.flatMap_cons, List.cons_append, List.cons_append, List.nil_append,
      decode_cons _ hhigh hlow, ih, hbyte]
    rfl

end Hex

instance hexDigits : HexCrate where
  encode := Hex.encode
  decode := Hex.decode
  decode_encode := Hex.decode_encode
  decode_nil := rfl
  decode_cons := Hex.decode_cons

end Hypercore
