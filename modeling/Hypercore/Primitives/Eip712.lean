import Hypercore.Primitives.Text
/-!
# Hypercore.Primitives.Eip712

Typed data as it is hashed for signing, and signatures of it.

What is outside the repository is a parameter (`Signing`): Keccak-256 without
collisions, lower case on all of Unicode, and public-key recovery on secp256k1.
-/

namespace Hypercore

namespace SymbolicKeccak

variable (K : SymbolicKeccak)

/-- Strings of bytes and of digests. -/
abbrev Data : Type := List (UInt8 ⊕ K.Digest)

/-! ### Encoding -/

/-- Encode a string as its hash. -/
def encodeString (text : String) : K.Digest := K.hashBytes text.toUTF8.data.toList

/-- The type hash of a type definition string. -/
def typeHash (typeStr : String) : K.Digest := K.hashBytes typeStr.toUTF8.data.toList

variable {K}

/-- Encode a `uint8` on 32 bytes. -/
def encodeUint8 (v : UInt8) : K.Data := (List.replicate 31 0 ++ [v]).map .inl

/-- Encode a `uint64` on 32 bytes. -/
def encodeUint64 (v : Nat) : K.Data := (List.replicate 24 0 ++ beBytes 8 v).map .inl

/-- Encode a bool on 32 bytes. -/
def encodeBool (v : Bool) : K.Data := encodeUint8 (if v then 1 else 0)

/-- Encode the bytes of an address on 32 bytes. -/
def encodeAddressBytes (address : List UInt8) : K.Data :=
  (List.replicate 12 0 ++ address).map .inl

/-- Encode an address string on 32 bytes. What is no address is all zeros. -/
def encodeAddressStr [HexCrate] (address : String) : K.Data :=
  match hexDecode (stripHexPrefix address) with
  | some bytes =>
    if bytes.length = 20 then encodeAddressBytes bytes
    else (List.replicate 32 0).map .inl
  | none => (List.replicate 32 0).map .inl

variable (K)

/-- Encode an array of struct hashes. -/
def encodeArray (hashes : List K.Digest) : K.Digest := K.keccak (hashes.map .inr)

/-- The hash of a struct: its type hash and its fields, one after the other. -/
def structHash (typeStr : String) (fields : List K.Data) : K.Digest :=
  K.keccak (.inr (K.typeHash typeStr) :: fields.flatten)

/-- Default chain id. -/
def defaultChainId : Nat := 1337

/-- The type hash of the domain, as written in the source. -/
def domainTypeHash : List UInt8 :=
  [0x8b, 0x73, 0xc3, 0xc6, 0x9b, 0xb8, 0xfe, 0x3d, 0x51, 0x2e, 0xcc, 0x4c, 0xf7, 0x59, 0xcc, 0x79,
    0x23, 0x9f, 0x7b, 0x17, 0x9b, 0x0f, 0xfa, 0xca, 0xa9, 0xa7, 0x5d, 0x52, 0x2b, 0x39, 0x40, 0x0f]

/-- The domain separator. The verifying contract is the zero address. -/
def computeDomainSeparator (chainId : Nat) : K.Digest :=
  K.keccak (domainTypeHash.map .inl ++
    [.inr (K.encodeString "HyperCore"), .inr (K.encodeString "1")] ++
    encodeUint64 chainId ++ (List.replicate 32 0).map .inl)

/-- The final hash, which is what is signed. -/
def typedDataHash (domainSeparator structHash : K.Digest) : K.Digest :=
  K.keccak ([0x19, 0x01].map .inl ++ [.inr domainSeparator, .inr structHash])

variable {K}

/-- Typed data of one domain is its struct hash. -/
@[simp] theorem typedDataHash_inj {domain h h' : K.Digest} :
    K.typedDataHash domain h = K.typedDataHash domain h' ↔ h = h' := by
  refine ⟨fun heq => ?_, fun heq => by rw [heq]⟩
  have hdata := List.append_cancel_left (K.injective heq)
  injection hdata with _ hdata
  injection hdata with hdata
  exact Sum.inr.inj hdata

/-- Structs of one type hash alike just when their fields do. -/
@[simp] theorem structHash_inj {typeStr : String} {fields fields' : List K.Data} :
    K.structHash typeStr fields = K.structHash typeStr fields' ↔
      fields.flatten = fields'.flatten := by
  refine ⟨fun heq => (List.cons_inj_right _).mp (K.injective heq), fun heq => ?_⟩
  unfold structHash
  rw [heq]

/-- Strings hash alike just when they are the same bytes. -/
@[simp] theorem encodeString_inj {text text' : String} :
    K.encodeString text = K.encodeString text' ↔ text = text' := by
  refine ⟨fun heq => ?_, fun heq => by rw [heq]⟩
  have hbytes := Array.toList_inj.mp (K.hashBytes_injective heq)
  exact String.toByteArray_inj.mp (ByteArray.ext hbytes)

end SymbolicKeccak

end Hypercore
