import Hypercore.Primitives.Keccak
/-!
# Hypercore.Primitives.Word

ABI words of 32 bytes, and what becomes of them when they are read in two halves of
128 bits.
-/

namespace Hypercore

open Int128

/-- The big-endian word at a position. -/
def wordAt (data : List UInt8) (i : Nat) : Nat := ofBeBytes ((data.drop i).take 32)

theorem ofBeBytes_append (xs ys : List UInt8) :
    ofBeBytes (xs ++ ys) = ofBeBytes xs * 256 ^ ys.length + ofBeBytes ys := by
  induction ys using List.reverseRecOn with
  | nil => simp [ofBeBytes]
  | append_singleton ys b ih =>
    have hlast (zs : List UInt8) : ofBeBytes (zs ++ [b]) = 256 * ofBeBytes zs + b.toNat := by
      unfold ofBeBytes
      rw [List.foldl_append]
      rfl
    rw [← List.append_assoc, hlast, hlast, ih, List.length_append, List.length_singleton, pow_succ]
    ring

/-- The halves of a word. -/
theorem wordAt_halves {data : List UInt8} {i : Nat} (h : i + 32 ≤ data.length) :
    ofBeBytes ((data.drop i).take 16) = wordAt data i / 2 ^ 128 ∧
      ofBeBytes ((data.drop (i + 16)).take 16) = wordAt data i % 2 ^ 128 := by
  have hlow : ((data.drop (i + 16)).take 16).length = 16 := by
    rw [List.length_take, List.length_drop]
    omega
  have hword : (data.drop i).take 32 =
      (data.drop i).take 16 ++ (data.drop (i + 16)).take 16 := by
    rw [← List.drop_drop, ← List.take_add]
  have hlt := ofBeBytes_lt ((data.drop (i + 16)).take 16)
  unfold wordAt
  rw [hword, ofBeBytes_append]
  rw [hlow] at hlt ⊢
  omega

/-- What a low half is as an `i128`, truncated by a positive divisor, is the word rounded down
exactly when the word is below 2^127. -/
theorem low_tdiv_eq_iff {w d : Nat} (hd : 0 < d) (hsmall : d ≤ 2 ^ 127) :
    (ofU128 (w % 2 ^ 128)).tdiv d = (w / d : Nat) ↔ w < 2 ^ 127 := by
  constructor
  · intro h
    by_contra hlarge
    have hquot : 1 ≤ w / d := (Nat.one_le_div_iff hd).mpr (by omega)
    unfold ofU128 at h
    split at h
    · -- the low half is smaller than the word by a multiple of 2^128
      rw [← Int.ofNat_tdiv, Int.natCast_inj] at h
      have hfar : w % 2 ^ 128 / d < w / d := by
        rw [Nat.div_lt_iff_lt_mul hd]
        have hmul := Nat.div_add_mod w d
        have hmod := Nat.mod_lt w hd
        have hcomm := Nat.mul_comm (w / d) d
        omega
      omega
    · -- the low half is negative
      have hneg := @Int.tdiv_nonneg (-(((w % 2 ^ 128 : Nat) : Int) - 2 ^ 128)) d (by omega)
        (by omega)
      rw [Int.neg_tdiv, h] at hneg
      omega
  · intro h
    have hmod : w % 2 ^ 128 = w := Nat.mod_eq_of_lt (by omega)
    unfold ofU128
    rw [hmod, if_pos h, ← Int.ofNat_tdiv]

end Hypercore
