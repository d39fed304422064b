import Hypercore.Persistence.MmapState
import Hypercore.Persistence.Snapshot
/-!
# Hypercore.Persistence.DecimalSerde

Decimals in the two kinds of formats that state is written in.

A human-readable format gets the text of a decimal, and the text is read with the eight
places of prices. A binary format gets the value and the places, and gives both back
(`write_binary`). What is read back is therefore the same number in both exactly when the
decimal fits eight places. For the text of a whole state see `PersistedState.ofText_map`.
-/

namespace Hypercore

open Exec Int128

/-- Whether a format is written for people: JSON is, bincode is not. -/
inductive Format
  | humanReadable
  | binary

/-- What a format holds: a string, or bytes. -/
inductive Wire
  | str (s : String)
  | bytes (bytes : List UInt8)

/-- A binary format, as far as decimals rely on it: pairs of an `i128` and a `u8` read back. -/
class PairFormat where
  encode : Int × Nat → List UInt8
  decode : List UInt8 → Option (Int × Nat)
  decode_encode (value : Int) (places : Nat) : InRange value → places < 2 ^ 8 →
    decode (encode (value, places)) = some (value, places)

namespace Decimal

/-! ### Serializing -/

/-- A decimal whose value is an `i128` that has an absolute value, with no more places than
the system uses. -/
structure Storable (d : Decimal) : Prop where
  lower : -2 ^ 127 < d.value
  upper : d.value < 2 ^ 127
  places : d.decimals ≤ 18

/-- The scale and the absolute value are in range. -/
theorem serialize_eq {d : Decimal} (hd : d.Storable) : d.serialize = .ok d.toStringTrimmed := by
  have hscale : InRange (10 ^ d.decimals) := by
    have hle : (10 : Int) ^ d.decimals ≤ 10 ^ 18 := pow_le_pow_right₀ (by decide) hd.places
    have hpos : (0 : Int) < 10 ^ d.decimals := by positivity
    exact ⟨by omega, by omega⟩
  have habs : InRange |d.value| := by
    have hle := abs_lt.mpr ⟨hd.lower, hd.upper⟩
    have hnonneg := abs_nonneg d.value
    exact ⟨by omega, hle⟩
  have hok : d.abs = .ok ⟨|d.value|, d.decimals⟩ :=
    bind_eq_ok.mpr ⟨_, i128_eq_ok.mpr ⟨habs, rfl⟩, rfl⟩
  unfold serialize
  rw [pow10_eq_ok.mpr ⟨hscale, rfl⟩, ok_bind, hok]
  rfl

variable [PairFormat]

/-- Write to a format: a string for API compatibility, or the exact representation. -/
def write (d : Decimal) : Format → Exec Wire
  | .humanReadable => do
    let s ← d.serialize
    return .str s
  | .binary => return .bytes (PairFormat.encode (d.value, d.decimals))

/-- Read from a format: parse a string with the default precision, or the exact pair. -/
def read : Format → Wire → Option Decimal
  | .humanReadable, .str s => deserialize s
  | .binary, .bytes bytes => (PairFormat.decode bytes).map fun p => ⟨p.1, p.2⟩
  | _, _ => none

/-- In both formats the decimal reads back as the same number. -/
def RoundTrips (d : Decimal) : Prop :=
  ∀ format, ∃ w d', d.write format = .ok w ∧ read format w = some d' ∧ d'.toRat = d.toRat

section RoundTrip

variable {d : Decimal}

/-- **Binary.** The decimal reads back as it was written. -/
theorem write_binary (hd : d.Storable) :
    ∃ w, d.write .binary = .ok w ∧ read .binary w = some d := by
  have hplaces : d.decimals < 2 ^ 8 := by have := hd.places; omega
  have hback := PairFormat.decode_encode d.value d.decimals ⟨hd.lower.le, hd.upper⟩ hplaces
  refine ⟨_, rfl, ?_⟩
  exact congrArg (Option.map fun p : Int × Nat => (⟨p.1, p.2⟩ : Decimal)) hback

/-- **Human-readable.** The text is only read when the decimal fits eight places. -/
theorem write_humanReadable (hd : d.Storable) :
    d.write .humanReadable = .ok (.str d.toStringTrimmed) ∧
    read .humanReadable (.str d.toStringTrimmed) =
      if d.FitsOn priceDecimals then some (d.onPlaces priceDecimals) else none := by
  refine ⟨?_, fromStrExact_toStringTrimmed d priceDecimals⟩
  unfold write
  rw [serialize_eq hd]
  rfl

/-- **Round trips.** Both formats give the number back exactly when it is an integer on eight
places, in range. The binary format always gives the number back, so the text with its eight
places decides. -/
theorem roundTrips_iff (hd : d.Storable) : d.RoundTrips ↔ d.FitsOn priceDecimals := by
  obtain ⟨hwrite, hread⟩ := write_humanReadable hd
  constructor
  · intro h
    obtain ⟨w, d', hw, hd', -⟩ := h .humanReadable
    obtain rfl := ok_unique hwrite hw
    rw [hread] at hd'
    by_contra hfit
    rw [if_neg hfit] at hd'
    cases hd'
  · intro hfit format
    cases format with
    | humanReadable => exact ⟨_, _, hwrite, hread.trans (if_pos hfit), toRat_onPlaces hfit⟩
    | binary =>
      obtain ⟨w, hw, hback⟩ := write_binary hd
      exact ⟨w, d, hw, hback, rfl⟩

end RoundTrip

end Decimal

/-! ### The layout of bincode -/

/-- The value in sixteen bytes, and the places in one. -/
def encodePair (p : Int × Nat) : List UInt8 :=
  i128Bytes p.1 ++ leBytes 1 p.2

def decodePair (bytes : List UInt8) : Option (Int × Nat) := do
  let (value, rest) ← WalEntry.Bincode.decodeNat 16 bytes
  let (places, _) ← WalEntry.Bincode.decodeNat 1 rest
  return (ofU128 value, places)

theorem decodePair_encodePair (value : Int) (places : Nat) (hvalue : InRange value)
    (hplaces : places < 2 ^ 8) :
    decodePair (encodePair (value, places)) = some (value, places) := by
  have hlt : (value % 2 ^ 128).toNat < 256 ^ 16 := by omega
  have hplace := @WalEntry.Bincode.decodeNat_leBytes 1 places (by omega) []
  rw [List.append_nil] at hplace
  unfold decodePair encodePair
  rw [i128Bytes, WalEntry.Bincode.decodeNat_leBytes hlt, Option.bind_eq_bind, Option.bind_some]
  dsimp only
  have hback : ofU128 (value % 2 ^ 128).toNat = value := ofU128_toU128 hvalue
  rw [hplace, Option.bind_some, hback]
  rfl

instance bincodePair : PairFormat where
  encode := encodePair
  decode := decodePair
  decode_encode := decodePair_encodePair

namespace Decimal

/-- The price 123.456, with the ten places of rates. -/
theorem roundTrips_rate : (⟨1234560000000, 10⟩ : Decimal).RoundTrips :=
  (roundTrips_iff ⟨by decide, by decide, by decide⟩).mpr (by decide)

/-- The smallest rate is written as a text that is not read. -/
theorem rate_not_read : ∃ w, (⟨1, 10⟩ : Decimal).Storable ∧
    write ⟨1, 10⟩ .humanReadable = .ok w ∧ read .humanReadable w = none ∧
    ¬ (⟨1, 10⟩ : Decimal).RoundTrips := by
  have hd : (⟨1, 10⟩ : Decimal).Storable := ⟨by decide, by decide, by decide⟩
  obtain ⟨hwrite, hread⟩ := write_humanReadable hd
  have hnone := hread.trans (if_neg (by decide))
  refine ⟨_, hd, hwrite, hnone, fun h => ?_⟩
  obtain ⟨w, d', hw, hd', -⟩ := h .humanReadable
  obtain rfl := ok_unique hwrite hw
  rw [hnone] at hd'
  cases hd'

end Decimal

end Hypercore
