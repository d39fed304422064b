import Hypercore.Primitives.Order
import Mathlib.Logic.Encodable.Basic
import Mathlib.Logic.Equiv.List
/-!
# Hypercore.Primitives.Keccak

Keccak-256 without collisions, and the byte strings that are hashed.

No function into 32 bytes is injective, so digests are symbols: what is hashed is a
string of bytes and of digests, a digest standing for its 32 bytes.
-/

namespace Hypercore

/-- Keccak-256 on strings of bytes and of digests. -/
structure SymbolicKeccak where
  Digest : Type
  decEq : DecidableEq Digest
  keccak : List (UInt8 ⊕ Digest) → Digest
  /-- No collisions. -/
  injective : Function.Injective keccak
  /-- 32 zero bytes. -/
  zero : Digest
  /-- Nothing hashes to zero. -/
  ne_zero : ∀ data, keccak data ≠ zero

attribute [instance] SymbolicKeccak.decEq

namespace SymbolicKeccak

variable (K : SymbolicKeccak)

/-- Hash bytes. -/
def hashBytes (data : List UInt8) : K.Digest := K.keccak (data.map .inl)

theorem hashBytes_injective : Function.Injective K.hashBytes := by
  intro x y h
  exact List.map_injective_iff.mpr Sum.inl_injective (K.injective h)

/-- A hash without collisions, by numbering what is hashed. -/
def numbered : SymbolicKeccak where
  Digest := Nat
  decEq := inferInstance
  keccak data := Encodable.encode (data.map (Sum.map UInt8.toNat id)) + 1
  injective := by
    intro x y h
    have hmap := Encodable.encode_injective (Nat.succ.inj h)
    refine List.map_injective_iff.mpr ?_ hmap
    exact Sum.map_injective.mpr ⟨fun _ _ => UInt8.toNat_inj.mp, Function.injective_id⟩
  zero := 0
  ne_zero _ := Nat.succ_ne_zero _

end SymbolicKeccak

/-! ### Bytes of numbers -/

/-- Little-endian bytes of a number. -/
def leBytes (width n : Nat) : List UInt8 :=
  (List.range width).map fun i => UInt8.ofNat (n / 256 ^ i)

/-- Big-endian bytes of a number. -/
def beBytes (width n : Nat) : List UInt8 := (leBytes width n).reverse

/-- The number that big-endian bytes stand for. -/
def ofBeBytes (bytes : List UInt8) : Nat := bytes.foldl (fun n b => 256 * n + b.toNat) 0

theorem length_leBytes (width n : Nat) : (leBytes width n).length = width := by
  unfold leBytes
  rw [List.length_map, List.length_range]

theorem leBytes_succ (width n : Nat) :
    leBytes (width + 1) n = UInt8.ofNat n :: leBytes width (n / 256) := by
  unfold leBytes
  rw [List.range_succ_eq_map, List.map_cons, List.map_map, pow_zero, Nat.div_one]
  refine congrArg _ (List.map_congr_left fun i _ => ?_)
  rw [Function.comp_apply, Nat.succ_eq_add_one, pow_succ', Nat.div_div_eq_div_mul]

/-- **Round trip.** A string of bytes comes back from its number. -/
theorem beBytes_ofBeBytes (bytes : List UInt8) :
    beBytes bytes.length (ofBeBytes bytes) = bytes := by
  induction bytes using List.reverseRecOn with
  | nil => rfl
  | append_singleton bytes b ih =>
    have hb := b.toNat_lt
    unfold beBytes at ih ⊢
    have hval : ofBeBytes (bytes ++ [b]) = 256 * ofBeBytes bytes + b.toNat := by
      unfold ofBeBytes
      rw [List.foldl_append]
      rfl
    have hlow : UInt8.ofNat (256 * ofBeBytes bytes + b.toNat) = b := by
      apply UInt8.toNat_inj.mp
      rw [UInt8.toNat_ofNat']
      omega
    have hhigh : (256 * ofBeBytes bytes + b.toNat) / 256 = ofBeBytes bytes := by omega
    rw [List.length_append, List.length_singleton, leBytes_succ, hval, hlow, hhigh,
      List.reverse_cons, ih]

theorem ofBeBytes_lt (bytes : List UInt8) : ofBeBytes bytes < 256 ^ bytes.length := by
  induction bytes using List.reverseRecOn with
  | nil => exact Nat.one_pos
  | append_singleton bytes b ih =>
    have hb := b.toNat_lt
    have hval : ofBeBytes (bytes ++ [b]) = 256 * ofBeBytes bytes + b.toNat := by
      unfold ofBeBytes
      rw [List.foldl_append]
      rfl
    rw [hval, List.length_append, List.length_singleton, pow_succ]
    omega

theorem length_beBytes (width n : Nat) : (beBytes width n).length = width := by
  unfold beBytes
  rw [List.length_reverse, length_leBytes]

/-- **Round trip.** A number comes back from enough bytes of it. -/
theorem ofBeBytes_beBytes {width n : Nat} (h : n < 256 ^ width) :
    ofBeBytes (beBytes width n) = n := by
  induction width generalizing n with
  | zero =>
    rw [pow_zero, Nat.lt_one_iff] at h
    rw [h]
    rfl
  | succ width ih =>
    have hhigh : n / 256 < 256 ^ width := by
      rw [pow_succ] at h
      omega
    have hlow : (UInt8.ofNat n).toNat = n % 256 := UInt8.toNat_ofNat' ..
    have hrest := ih hhigh
    unfold beBytes ofBeBytes at hrest ⊢
    rw [leBytes_succ, List.reverse_cons, List.foldl_append, hrest, List.foldl_cons, List.foldl_nil,
      hlow]
    omega

theorem leBytes_inj {width n m : Nat} (hn : n < 256 ^ width) (hm : m < 256 ^ width)
    (h : leBytes width n = leBytes width m) : n = m := by
  have hbytes : beBytes width n = beBytes width m := congrArg List.reverse h
  rw [← ofBeBytes_beBytes hn, hbytes, ofBeBytes_beBytes hm]

/-- The 20 bytes of an address. -/
def addressBytes (a : AccountAddress) : List UInt8 := beBytes 20 a.val

@[simp] theorem length_addressBytes (a : AccountAddress) : (addressBytes a).length = 20 :=
  length_beBytes ..

theorem addressBytes_injective : Function.Injective addressBytes := by
  intro a b h
  have ha : ofBeBytes (addressBytes a) = a.val := ofBeBytes_beBytes a.isLt
  have hb : ofBeBytes (addressBytes b) = b.val := ofBeBytes_beBytes b.isLt
  exact Fin.ext (ha.symm.trans ((congrArg ofBeBytes h).trans hb))

/-- `i128::to_le_bytes`. -/
def i128Bytes (v : Int) : List UInt8 := leBytes 16 (v % 2 ^ 128).toNat

/-- A number of 32 bytes. -/
abbrev Bytes32 := { bytes : List UInt8 // bytes.length = 32 }

instance : Ord Bytes32 := ⟨fun a b => compare a.val b.val⟩

instance : Std.TransOrd Bytes32 := by
  show Std.TransCmp (compareOn Subtype.val)
  infer_instance

instance : Std.LawfulEqOrd Bytes32 where
  eq_of_compare h := Subtype.ext (Std.compare_eq_iff_eq.mp h)

/-- One byte, 32 times. -/
def Bytes32.filled (b : UInt8) : Bytes32 := ⟨List.replicate 32 b, List.length_replicate⟩

/-- `B256::from_slice(bytes.get(..32).unwrap_or(&[0u8; 32]))`. -/
def Bytes32.ofPrefix (bytes : List UInt8) : Bytes32 :=
  if h : 32 ≤ bytes.length then ⟨bytes.take 32, by rw [List.length_take]; omega⟩
  else ⟨List.replicate 32 0, List.length_replicate⟩

theorem Bytes32.ofPrefix_val {bytes : List UInt8} (h : bytes.length = 32) :
    (Bytes32.ofPrefix bytes).val = bytes := by
  unfold Bytes32.ofPrefix
  rw [dif_pos h.ge]
  exact List.take_of_length_le h.le

end Hypercore
