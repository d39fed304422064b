import Hypercore.Lib.Rlp
import Hypercore.Primitives.Text
/-!
# Hypercore.Chain.ContractAddress

The address of a contract that a transaction creates.

The address is a hash of the RLP list of sender and nonce, which the source writes by hand.
Its list prefix counts nine bytes for every nonce from 256 on, whatever the nonce takes.
-/

namespace Hypercore

open Rlp

/-- How many bytes the nonce is taken to have in the list. -/
def nonceLen (nonce : UInt64) : Nat :=
  if nonce = 0 then 1 else if nonce < 0x80 then 1 else if nonce < 0x100 then 2 else 9

/-- The nonce in the list. -/
def nonceItem (nonce : UInt64) : List UInt8 :=
  if nonce = 0 then [0x80]
  else if nonce < 0x80 then [UInt8.ofNat nonce.toNat]
  else if nonce < 0x100 then [0x81, UInt8.ofNat nonce.toNat]
  else
    let nonceBytes := (beBytes 8 nonce.toNat).dropWhile (· = 0)
    (0x80 + UInt8.ofNat nonceBytes.length) :: nonceBytes

/-- What is hashed for the address. -/
def contractAddressData (sender : AccountAddress) (nonce : UInt64) : List UInt8 :=
  let senderLen := 21
  let totalLen := senderLen + nonceLen nonce
  let listPrefix := if totalLen < 56 then [0xc0 + UInt8.ofNat totalLen]
    else [0xf7 + 1, UInt8.ofNat totalLen]
  listPrefix ++ [0x94] ++ addressBytes sender ++ nonceItem nonce

/-- The last 20 bytes of a hash, in hex. -/
def addressHex [HexCrate] (hash : Bytes32) : String := "0x" ++ hexEncode (hash.val.drop 12)

/-- Calculate contract address from sender and nonce. -/
def calculateContractAddressHex [HexCrate] (keccak256 : List UInt8 → Bytes32)
    (sender : AccountAddress)
    (nonce : UInt64) : String :=
  addressHex (keccak256 (contractAddressData sender nonce))

/-- The list of sender and nonce. -/
def creationItem (sender : AccountAddress) (nonce : UInt64) : Item :=
  .list [.bytes (addressBytes sender), .bytes (bigEndian nonce.toNat)]

/-! ### The nonce -/

/-- Without its leading zeros, a fixed number of bytes is the shortest one. -/
theorem dropWhile_beBytes {width n : Nat} (h : n < 256 ^ width) :
    (beBytes width n).dropWhile (· = 0) = bigEndian n := by
  induction width generalizing n with
  | zero =>
    rw [Nat.lt_one_iff.mp h]
    rfl
  | succ width ih =>
    have hhigh : n / 256 < 256 ^ width := by
      rw [pow_succ] at h
      omega
    have hbytes : beBytes (width + 1) n = beBytes width (n / 256) ++ [UInt8.ofNat n] := by
      unfold beBytes
      rw [leBytes_succ, List.reverse_cons]
    have hbyte : UInt8.ofNat n = UInt8.ofNat (n % 256) := by
      apply UInt8.toNat_inj.mp
      rw [UInt8.toNat_ofNat', UInt8.toNat_ofNat']
      omega
    rw [hbytes, List.dropWhile_append, ih hhigh]
    rcases Nat.eq_zero_or_pos n with rfl | hpos
    · rfl
    · rw [bigEndian_pos hpos, hbyte]
      by_cases hone : n / 256 = 0
      · have hne : UInt8.ofNat (n % 256) ≠ 0 := by
          intro hzero
          have hval := congrArg UInt8.toNat hzero
          rw [UInt8.toNat_ofNat', UInt8.toNat_zero] at hval
          omega
        rw [hone, bigEndian_zero, List.isEmpty_nil, if_pos rfl, List.nil_append,
          List.dropWhile_cons_of_neg (by simpa using hne)]
      · have hlong : (bigEndian (n / 256)).isEmpty = false := by
          rw [List.isEmpty_eq_false_iff, ← List.length_pos_iff, lt_length_bigEndian_iff]
          omega
        rw [hlong]
        rfl

/-- The nonce is written as its RLP string. -/
theorem nonceItem_eq (nonce : UInt64) : nonceItem nonce = encodeBytes (bigEndian nonce.toNat) := by
  have hrange := nonce.toNat_lt
  unfold nonceItem
  simp only [UInt64.lt_iff_toNat_lt, ← UInt64.toNat_inj, UInt64.toNat_zero]
  have h80 : (0x80 : UInt64).toNat = 128 := rfl
  have h100 : (0x100 : UInt64).toNat = 256 := rfl
  rw [h80, h100]
  by_cases hzero : nonce.toNat = 0
  · rw [if_pos hzero, hzero]
    rfl
  rw [if_neg hzero]
  have hpos := Nat.pos_of_ne_zero hzero
  by_cases hsmall : nonce.toNat < 128
  · have hbyte : UInt8.ofNat nonce.toNat < 0x80 := by
      rw [UInt8.lt_iff_toNat_lt, UInt8.toNat_ofNat']
      have h : (0x80 : UInt8).toNat = 128 := rfl
      omega
    rw [if_pos hsmall, bigEndian_byte hpos (by omega)]
    exact (if_pos hbyte).symm
  rw [if_neg hsmall]
  by_cases hbyte : nonce.toNat < 256
  · have hlarge : ¬ UInt8.ofNat nonce.toNat < 0x80 := by
      rw [UInt8.lt_iff_toNat_lt, UInt8.toNat_ofNat']
      have h : (0x80 : UInt8).toNat = 128 := rfl
      omega
    rw [if_pos hbyte, bigEndian_byte hpos hbyte]
    exact (if_neg hlarge).symm
  · rw [if_neg hbyte, dropWhile_beBytes (by omega)]
    have hlong : 1 < (bigEndian nonce.toNat).length := by
      rw [lt_length_bigEndian_iff]
      omega
    have hshort : (bigEndian nonce.toNat).length ≤ 8 := by
      rw [length_bigEndian_le_iff]
      omega
    rw [encodeBytes_of_length_ne_one (by omega)]
    unfold header
    rw [if_pos (by omega), List.singleton_append]
    congr 1
    apply UInt8.toNat_inj.mp
    rw [UInt8.toNat_add, UInt8.toNat_ofNat', UInt8.toNat_ofNat']
    have h : (0x80 : UInt8).toNat = 128 := rfl
    omega

/-- The length of the nonce in the list. -/
theorem length_nonceItem (nonce : UInt64) : (nonceItem nonce).length =
    if nonce.toNat < 128 then 1 else 1 + (bigEndian nonce.toNat).length := by
  have hrange := nonce.toNat_lt
  unfold nonceItem
  simp only [UInt64.lt_iff_toNat_lt, ← UInt64.toNat_inj, UInt64.toNat_zero]
  have h80 : (0x80 : UInt64).toNat = 128 := rfl
  have h100 : (0x100 : UInt64).toNat = 256 := rfl
  rw [h80, h100]
  by_cases hzero : nonce.toNat = 0
  · rw [if_pos hzero, if_pos (by omega)]
    rfl
  rw [if_neg hzero]
  by_cases hsmall : nonce.toNat < 128
  · rw [if_pos hsmall, if_pos hsmall]
    rfl
  rw [if_neg hsmall, if_neg hsmall]
  by_cases hbyte : nonce.toNat < 256
  · rw [if_pos hbyte, bigEndian_byte (by omega) hbyte]
    rfl
  · rw [if_neg hbyte, dropWhile_beBytes (by omega), List.length_cons, Nat.add_comm]

theorem length_nonceItem_le (nonce : UInt64) : (nonceItem nonce).length ≤ 9 := by
  have hrange := nonce.toNat_lt
  have height : (bigEndian nonce.toNat).length ≤ 8 := by
    rw [length_bigEndian_le_iff]
    omega
  rw [length_nonceItem]
  split <;> omega

/-- The counted length of the nonce is the right one below 256, and from 2^56 on. -/
theorem nonceLen_eq_iff (nonce : UInt64) : nonceLen nonce = (nonceItem nonce).length ↔
    nonce.toNat < 256 ∨ 2 ^ 56 ≤ nonce.toNat := by
  have hrange := nonce.toNat_lt
  rw [length_nonceItem]
  unfold nonceLen
  simp only [UInt64.lt_iff_toNat_lt, ← UInt64.toNat_inj, UInt64.toNat_zero]
  have h80 : (0x80 : UInt64).toNat = 128 := rfl
  have h100 : (0x100 : UInt64).toNat = 256 := rfl
  have hone : 128 ≤ nonce.toNat → nonce.toNat < 256 → (bigEndian nonce.toNat).length = 1 := by
    intro hlow hhigh
    rw [bigEndian_byte (by omega) hhigh]
    rfl
  have hseven : 7 < (bigEndian nonce.toNat).length ↔ 256 ^ 7 ≤ nonce.toNat :=
    lt_length_bigEndian_iff
  have height : (bigEndian nonce.toNat).length ≤ 8 := by
    rw [length_bigEndian_le_iff]
    omega
  rw [h80, h100]
  split_ifs <;> omega

/-! ### The list -/

/-- The encoding of the list, in the shape of what is hashed. -/
theorem encode_creationItem (sender : AccountAddress) (nonce : UInt64) :
    (creationItem sender nonce).encode =
      UInt8.ofNat (0xc0 + (21 + (nonceItem nonce).length)) ::
        ([0x94] ++ addressBytes sender ++ nonceItem nonce) := by
  have haddress : (addressBytes sender).length = 20 := length_beBytes ..
  have hsender : encodeBytes (addressBytes sender) = [0x94] ++ addressBytes sender := by
    rw [encodeBytes_of_length_ne_one (by omega), haddress]
    rfl
  have hshort := length_nonceItem_le nonce
  have hpayload : encodeAll [.bytes (addressBytes sender), .bytes (bigEndian nonce.toNat)] =
      [0x94] ++ addressBytes sender ++ nonceItem nonce := by
    simp only [encodeAll, Item.encode, hsender, ← nonceItem_eq, List.append_nil]
  have hlength : ([0x94] ++ addressBytes sender ++ nonceItem nonce).length =
      21 + (nonceItem nonce).length := by
    rw [List.length_append, List.length_append, haddress]
    rfl
  unfold creationItem Item.encode
  rw [hpayload, hlength]
  unfold header
  rw [if_pos (by omega)]
  rfl

/-- What is hashed is the list exactly when the nonce is counted right. -/
theorem contractAddressData_eq_iff (sender : AccountAddress) (nonce : UInt64) :
    contractAddressData sender nonce = (creationItem sender nonce).encode ↔
      nonceLen nonce = (nonceItem nonce).length := by
  have hcounted : nonceLen nonce ≤ 9 := by
    unfold nonceLen
    split_ifs <;> decide
  have hshort := length_nonceItem_le nonce
  rw [encode_creationItem]
  unfold contractAddressData
  dsimp only
  rw [if_pos (by omega)]
  have hbyte : (0xc0 + UInt8.ofNat (21 + nonceLen nonce) : UInt8) =
      UInt8.ofNat (0xc0 + (21 + (nonceItem nonce).length)) ↔
        nonceLen nonce = (nonceItem nonce).length := by
    have h : (0xc0 : UInt8).toNat = 192 := rfl
    rw [← UInt8.toNat_inj, UInt8.toNat_add, UInt8.toNat_ofNat', UInt8.toNat_ofNat']
    omega
  rw [← hbyte]
  simp only [List.cons_append, List.nil_append, List.cons.injEq, and_true]

/-- **Contract addresses.** What is hashed for the address is the RLP list of sender and nonce,
and the address the one of that list whatever the hash function, exactly for the nonces below 256
and from 2^56 on. The item of the nonce is right; the list prefix counts nine bytes for it from
256 on, which it has from 2^56 on. -/
theorem contract_address_iff [HexCrate] (sender : AccountAddress) (nonce : UInt64) :
    (contractAddressData sender nonce = (creationItem sender nonce).encode ↔
      nonce.toNat < 256 ∨ 2 ^ 56 ≤ nonce.toNat) ∧
    ((∀ keccak256 : List UInt8 → Bytes32, calculateContractAddressHex keccak256 sender nonce =
        addressHex (keccak256 (creationItem sender nonce).encode)) ↔
      nonce.toNat < 256 ∨ 2 ^ 56 ≤ nonce.toNat) := by
  have hdata := (contractAddressData_eq_iff sender nonce).trans (nonceLen_eq_iff nonce)
  refine ⟨hdata, ?_⟩
  rw [← hdata]
  constructor
  · intro h
    by_contra hne
    -- a function that tells the two apart gives two addresses
    let zeros : Bytes32 := ⟨List.replicate 32 0, List.length_replicate⟩
    let ones : Bytes32 := ⟨List.replicate 32 1, List.length_replicate⟩
    have hsame := h fun data => if data = contractAddressData sender nonce then zeros else ones
    unfold calculateContractAddressHex at hsame
    dsimp only at hsame
    rw [if_pos rfl, if_neg fun heq => hne heq.symm] at hsame
    exact absurd (prefixed_hexEncode_injective hsame) (by decide +kernel)
  · intro heq keccak256
    unfold calculateContractAddressHex
    rw [heq]

/-- From nonce 256 on the list prefix counts too many bytes. -/
theorem nonce_256_miscounted : ∃ (sender : AccountAddress) (nonce : UInt64),
    contractAddressData sender nonce ≠ (creationItem sender nonce).encode := by
  refine ⟨1, 256, fun heq => ?_⟩
  have hlen := (contractAddressData_eq_iff 1 256).mp heq
  rw [length_nonceItem] at hlen
  exact absurd hlen (by decide +kernel)

end Hypercore
