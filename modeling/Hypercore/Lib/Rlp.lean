import Mathlib.Data.List.Basic
import Mathlib.Data.Nat.Digits.Lemmas
/-!
# Hypercore.Lib.Rlp

Recursive length prefix encoding: strings of bytes and lists of items.

Numbers are encoded as strings, by their big-endian bytes without leading zeros.
-/

namespace Rlp

/-- A string of bytes, or a list of items. -/
inductive Item
  | bytes (data : List UInt8)
  | list (items : List Item)

/-- The big-endian bytes of a number, the first of them not zero. -/
def bigEndian (n : Nat) : List UInt8 := (Nat.digits 256 n).reverse.map UInt8.ofNat

/-- What stands before a payload: its length in one byte with the offset of its kind, or from
56 on the length of the length and the length. -/
def header (offset length : Nat) : List UInt8 :=
  if length < 56 then [UInt8.ofNat (offset + length)]
  else UInt8.ofNat (offset + 55 + (bigEndian length).length) :: bigEndian length

/-- A single byte below 0x80 is its own encoding. -/
def encodeBytes (data : List UInt8) : List UInt8 :=
  match data with
  | [b] => if b < 0x80 then [b] else header 0x80 1 ++ [b]
  | data => header 0x80 data.length ++ data

mutual

/-- The encoding of an item. -/
def Item.encode : Item → List UInt8
  | .bytes data => encodeBytes data
  | .list items => header 0xc0 (encodeAll items).length ++ encodeAll items

/-- Encodings one after the other. -/
def encodeAll : List Item → List UInt8
  | [] => []
  | item :: items => item.encode ++ encodeAll items

end

@[simp] theorem bigEndian_zero : bigEndian 0 = [] := rfl

/-- The last byte of a number, behind those of the rest. -/
theorem bigEndian_pos {n : Nat} (h : 0 < n) :
    bigEndian n = bigEndian (n / 256) ++ [UInt8.ofNat (n % 256)] := by
  unfold bigEndian
  rw [Nat.digits_def' (by decide) h, List.reverse_cons, List.map_append, List.map_singleton]

/-- A number of one byte. -/
theorem bigEndian_byte {n : Nat} (h : 0 < n) (hlt : n < 256) : bigEndian n = [UInt8.ofNat n] := by
  rw [bigEndian_pos h, Nat.div_eq_of_lt hlt, Nat.mod_eq_of_lt hlt]
  rfl

theorem length_bigEndian_le_iff {k n : Nat} : (bigEndian n).length ≤ k ↔ n < 256 ^ k := by
  unfold bigEndian
  rw [List.length_map, List.length_reverse]
  exact Nat.digits_length_le_iff (by decide) n

theorem lt_length_bigEndian_iff {k n : Nat} : k < (bigEndian n).length ↔ 256 ^ k ≤ n := by
  rw [← Nat.not_le, length_bigEndian_le_iff, Nat.not_lt]

/-- The encoding of a string that is not one byte. -/
theorem encodeBytes_of_length_ne_one {data : List UInt8} (h : data.length ≠ 1) :
    encodeBytes data = header 0x80 data.length ++ data := by
  unfold encodeBytes
  split
  · exact absurd rfl h
  · rfl

end Rlp
