import Hypercore.Lib.Merkle
import Hypercore.Primitives.Keccak
/-!
# Hypercore.Chain.ProofBytes

The byte format of Merkle proofs.

`fromBytes` reads as many siblings as the count says and stops there. What it takes is
therefore the bytes of a proof with anything behind them (`fromBytes_eq_some`), and only
among strings of one length is the encoding canonical.
-/

namespace Hypercore.Bytes32

theorem ofPrefix_append (hash : Bytes32) (rest : List UInt8) :
    ofPrefix (hash.val ++ rest) = hash := by
  apply Subtype.ext
  unfold ofPrefix
  rw [dif_pos (by rw [List.length_append, hash.property]; omega)]
  exact List.take_left' hash.property

/-- A string of at least 32 bytes starts with a hash. -/
theorem exists_append {bytes : List UInt8} (h : 32 ≤ bytes.length) :
    ∃ (hash : Bytes32) (rest : List UInt8), bytes = hash.val ++ rest := by
  refine ⟨⟨bytes.take 32, ?_⟩, bytes.drop 32, (List.take_append_drop 32 bytes).symm⟩
  rw [List.length_take]
  omega

end Hypercore.Bytes32

namespace Merkle

open Hypercore

/-- `u32::from_le_bytes`. -/
def u32FromLeBytes (bytes : List UInt8) : Nat := ofBeBytes bytes.reverse

/-- The byte of a direction. -/
def ProofDirection.toByte : ProofDirection → UInt8
  | .left => 0
  | .right => 1

/-- The direction of a byte. -/
def ProofDirection.ofByte : UInt8 → Option ProofDirection
  | 0 => some .left
  | 1 => some .right
  | _ => none

namespace MerkleProof

/-- Each sibling: its hash and its direction. -/
def siblingBytes (sibling : ProofDirection × Bytes32) : List UInt8 :=
  sibling.2.val ++ [sibling.1.toByte]

/-- Serialize the proof to bytes. -/
def toBytes (p : MerkleProof Bytes32) : List UInt8 :=
  p.leafHash.val ++ leBytes 4 p.leafIndex ++ leBytes 4 p.siblings.length ++
    p.siblings.flatMap siblingBytes

/-- Read a number of siblings. -/
def readSiblings : Nat → List UInt8 → Option (List (ProofDirection × Bytes32))
  | 0, _ => some []
  | n + 1, bytes =>
    if bytes.length < 33 then none
    else do
      let direction ← ProofDirection.ofByte ((bytes[32]?).getD 0)
      let rest ← readSiblings n (bytes.drop 33)
      return (direction, .ofPrefix bytes) :: rest

/-- Deserialize a proof from bytes. -/
def fromBytes (bytes : List UInt8) : Option (MerkleProof Bytes32) :=
  if bytes.length < 40 then none
  else do
    let leafIndex := u32FromLeBytes ((bytes.drop 32).take 4)
    let numSiblings := u32FromLeBytes ((bytes.drop 36).take 4)
    let siblings ← readSiblings numSiblings (bytes.drop 40)
    return ⟨.ofPrefix bytes, siblings, leafIndex⟩

end MerkleProof

/-! ### Pieces of the format -/

theorem ProofDirection.ofByte_eq_some {b : UInt8} {d : ProofDirection} :
    ofByte b = some d ↔ b = d.toByte := by
  constructor
  · intro h
    unfold ofByte at h
    split at h <;> cases h <;> rfl
  · rintro rfl
    cases d <;> rfl

/-- Four bytes and their number. -/
theorem u32FromLeBytes_eq {bytes : List UInt8} (h : bytes.length = 4) {n : Nat} :
    u32FromLeBytes bytes = n ↔ n < 2 ^ 32 ∧ bytes = leBytes 4 n := by
  have hlen : bytes.reverse.length = 4 := by rw [List.length_reverse, h]
  constructor
  · rintro rfl
    have hlt := ofBeBytes_lt bytes.reverse
    have hback := beBytes_ofBeBytes bytes.reverse
    rw [hlen] at hlt hback
    unfold beBytes at hback
    exact ⟨hlt, (List.reverse_inj.mp hback).symm⟩
  · rintro ⟨hn, rfl⟩
    exact ofBeBytes_beBytes hn

namespace MerkleProof

variable {bytes rest : List UInt8} {siblings : List (ProofDirection × Bytes32)}

@[simp] theorem length_siblingBytes (sibling : ProofDirection × Bytes32) :
    (siblingBytes sibling).length = 33 := by
  unfold siblingBytes
  rw [List.length_append, sibling.2.property]
  rfl

theorem length_flatMap_siblingBytes :
    (siblings.flatMap siblingBytes).length = 33 * siblings.length := by
  induction siblings with
  | nil => rfl
  | cons sibling siblings ih =>
    rw [List.flatMap_cons, List.length_append, length_siblingBytes, ih, List.length_cons]
    omega

theorem length_toBytes (p : MerkleProof Bytes32) :
    p.toBytes.length = 40 + 33 * p.siblings.length := by
  unfold toBytes
  rw [List.length_append, List.length_append, List.length_append, p.leafHash.property,
    length_leBytes, length_leBytes, length_flatMap_siblingBytes]

/-- One sibling is read off the front. -/
theorem readSiblings_append (n : Nat) (sibling : ProofDirection × Bytes32) (rest : List UInt8) :
    readSiblings (n + 1) (siblingBytes sibling ++ rest) =
      (readSiblings n rest).map fun siblings => sibling :: siblings := by
  have hlen := length_siblingBytes sibling
  have hdirection : (siblingBytes sibling ++ rest)[32]? = some sibling.1.toByte := by
    unfold siblingBytes
    rw [List.append_assoc, List.getElem?_append_right (by rw [sibling.2.property])]
    rw [sibling.2.property]
    rfl
  have hhash : Bytes32.ofPrefix (siblingBytes sibling ++ rest) = sibling.2 := by
    unfold siblingBytes
    rw [List.append_assoc]
    exact Bytes32.ofPrefix_append sibling.2 _
  rw [readSiblings, if_neg (by rw [List.length_append, hlen]; omega), hdirection,
    Option.getD_some, ProofDirection.ofByte_eq_some.mpr rfl, hhash, List.drop_left' hlen]
  cases readSiblings n rest <;> rfl

/-- The siblings that are read are those that the string starts with. -/
theorem readSiblings_eq_some {n : Nat} : readSiblings n bytes = some siblings ↔
    siblings.length = n ∧ ∃ rest, bytes = siblings.flatMap siblingBytes ++ rest := by
  induction n generalizing bytes siblings with
  | zero =>
    constructor
    · intro h
      cases h
      exact ⟨rfl, bytes, rfl⟩
    · rintro ⟨hnone, -⟩
      rw [List.length_eq_zero_iff.mp hnone]
      rfl
  | succ n ih =>
    constructor
    · intro h
      have hlong : 33 ≤ bytes.length := by
        by_contra hshort
        unfold readSiblings at h
        rw [if_pos (by omega)] at h
        cases h
      obtain ⟨hash, rest, rfl⟩ := Bytes32.exists_append (by omega : 32 ≤ bytes.length)
      cases rest with
      | nil =>
        rw [List.append_nil, hash.property] at hlong
        omega
      | cons b rest =>
        -- the byte behind the hash is that of a direction, or nothing was read
        cases hd : ProofDirection.ofByte b with
        | none =>
          unfold readSiblings at h
          rw [if_neg (by omega), List.getElem?_append_right (by rw [hash.property]),
            hash.property] at h
          simp [hd] at h
        | some d =>
          have hfront : hash.val ++ b :: rest = siblingBytes (d, hash) ++ rest := by
            rw [ProofDirection.ofByte_eq_some.mp hd]
            exact List.append_cons hash.val _ rest
          rw [hfront, readSiblings_append] at h
          obtain ⟨siblings', hrest, rfl⟩ := Option.map_eq_some_iff.mp h
          obtain ⟨hlen, rest', rfl⟩ := ih.mp hrest
          refine ⟨by rw [List.length_cons, hlen], rest', ?_⟩
          rw [hfront, List.flatMap_cons, List.append_assoc]
    · rintro ⟨hlen, rest, rfl⟩
      cases siblings with
      | nil => cases hlen
      | cons sibling siblings =>
        rw [List.flatMap_cons, List.append_assoc, readSiblings_append]
        rw [ih.mpr ⟨Nat.succ.inj hlen, rest, rfl⟩]
        rfl

/-- The numbers of a proof are `u32`. -/
def Fits (p : MerkleProof Bytes32) : Prop := p.leafIndex < 2 ^ 32 ∧ p.siblings.length < 2 ^ 32

/-- A proof is read off a hash, two numbers and the siblings. -/
theorem fromBytes_append (hash : Bytes32) (h : 8 ≤ rest.length) :
    fromBytes (hash.val ++ rest) =
      (readSiblings (u32FromLeBytes ((rest.drop 4).take 4)) ((rest.drop 4).drop 4)).map
        fun siblings => ⟨hash, siblings, u32FromLeBytes (rest.take 4)⟩ := by
  have hindex : (hash.val ++ rest).drop 32 = rest := List.drop_left' hash.property
  have hcount : (hash.val ++ rest).drop 36 = rest.drop 4 := by
    rw [show (36 : Nat) = 32 + 4 from rfl, ← List.drop_drop, hindex]
  have hbody : (hash.val ++ rest).drop 40 = (rest.drop 4).drop 4 := by
    rw [show (40 : Nat) = 36 + 4 from rfl, ← List.drop_drop, hcount]
  unfold fromBytes
  rw [if_neg (by rw [List.length_append, hash.property]; omega), hindex, hcount, hbody,
    Bytes32.ofPrefix_append]
  dsimp only
  cases readSiblings (u32FromLeBytes ((rest.drop 4).take 4)) ((rest.drop 4).drop 4) <;> rfl

/-- **The format.** What is taken for a proof is its bytes, with anything behind them. -/
theorem fromBytes_eq_some {p : MerkleProof Bytes32} :
    fromBytes bytes = some p ↔ p.Fits ∧ ∃ rest, bytes = p.toBytes ++ rest := by
  by_cases hshort : bytes.length < 40
  · constructor
    · intro h
      unfold fromBytes at h
      rw [if_pos hshort] at h
      cases h
    · rintro ⟨-, rest, rfl⟩
      rw [List.length_append, length_toBytes] at hshort
      omega
  · obtain ⟨hash, rest, rfl⟩ := Bytes32.exists_append (by omega : 32 ≤ bytes.length)
    rw [List.length_append, hash.property] at hshort
    have hlen : (rest.take 4).length = 4 := by
      rw [List.length_take]
      omega
    have hlen' : ((rest.drop 4).take 4).length = 4 := by
      rw [List.length_take, List.length_drop]
      omega
    rw [fromBytes_append hash (by omega), Option.map_eq_some_iff]
    constructor
    · rintro ⟨siblings, hsiblings, rfl⟩
      obtain ⟨hnum, tail, htail⟩ := readSiblings_eq_some.mp hsiblings
      obtain ⟨hsize, hbytes⟩ := (u32FromLeBytes_eq hlen').mp hnum.symm
      obtain ⟨hfit, hbytes'⟩ := (u32FromLeBytes_eq hlen).mp rfl
      refine ⟨⟨hfit, hsize⟩, tail, ?_⟩
      unfold toBytes
      dsimp only
      rw [← hbytes', ← hbytes, List.append_assoc, List.append_assoc, List.append_assoc, ← htail,
        List.take_append_drop, List.take_append_drop]
    · rintro ⟨hfits, tail, heq⟩
      unfold toBytes at heq
      rw [List.append_assoc, List.append_assoc, List.append_assoc] at heq
      obtain ⟨hhash, rfl⟩ := List.append_inj heq (hash.property.trans p.leafHash.property.symm)
      have hfour : (leBytes 4 p.leafIndex).length = 4 := length_leBytes ..
      have hfour' : (leBytes 4 p.siblings.length).length = 4 := length_leBytes ..
      rw [List.take_left' hfour, List.drop_left' hfour, List.take_left' hfour',
        List.drop_left' hfour', (u32FromLeBytes_eq hfour).mpr ⟨hfits.1, rfl⟩,
        (u32FromLeBytes_eq hfour').mpr ⟨hfits.2, rfl⟩]
      refine ⟨p.siblings, readSiblings_eq_some.mpr ⟨rfl, tail, rfl⟩, ?_⟩
      rw [Subtype.ext hhash]

end MerkleProof

/-! ### Proofs of a tree -/

section Tree

variable {H : Type} {pair : H → H → H}

/-- A path has at most one sibling per level below the root. -/
theorem length_path : ∀ (levels : List (List H)) (i : Nat) {steps : List (ProofDirection × H)},
    path levels i = some steps → steps.length ≤ levels.length - 1
  | [], i, steps, h => by
    cases h
    exact Nat.zero_le _
  | [l], i, steps, h => by
    cases h
    exact Nat.zero_le _
  | l :: l' :: above, i, steps, h => by
    obtain ⟨sibling, -, h⟩ := Option.bind_eq_some_iff.mp h
    obtain ⟨rest, hrest, h⟩ := Option.bind_eq_some_iff.mp h
    cases h
    have hlen := length_path (l' :: above) (i / 2) hrest
    simp only [List.length_cons] at hlen ⊢
    omega

theorem length_levelsAbove (fuel : Nat) (l : List H) :
    (levelsAbove pair fuel l).length ≤ fuel := by
  induction fuel generalizing l with
  | zero => exact Nat.le_refl 0
  | succ fuel ih =>
    unfold levelsAbove
    split
    · exact Nat.succ_le_succ (Nat.zero_le fuel)
    · exact Nat.succ_le_succ (ih _)

/-- The numbers of a proof are bounded by the number of leaves. -/
theorem MerkleTree.prove_bounds {empty : H} {leaves : List H} {i : Nat} {p : MerkleProof H}
    (h : (fromLeaves pair empty leaves).prove i = some p) :
    p.leafIndex < leaves.length ∧ p.siblings.length ≤ leaves.length := by
  obtain ⟨hleaf, -⟩ := prove_fromLeaves h
  obtain ⟨leafHash, hleaf', h⟩ := Option.bind_eq_some_iff.mp h
  obtain ⟨steps, hsteps, h⟩ := Option.bind_eq_some_iff.mp h
  cases h
  rw [leaves_fromLeaves] at hleaf'
  have hlt := (List.getElem?_eq_some_iff.mp hleaf').1
  refine ⟨hlt, (length_path _ _ hsteps).trans ?_⟩
  have hne : leaves ≠ [] := by
    rintro rfl
    cases hlt
  unfold fromLeaves
  rw [if_neg hne]
  exact length_levelsAbove leaves.length leaves

end Tree

/-- **Round trip and canonicity.** Every proof of a tree with fewer than 2^32 leaves reads back.
What reads as a proof starts with the bytes of that proof, whatever follows them, and is these
bytes exactly when it has their length. -/
theorem proof_bytes (pair : Bytes32 → Bytes32 → Bytes32) (empty : Bytes32) :
    (∀ (leaves : List Bytes32) (i : Nat) (p : MerkleProof Bytes32), leaves.length < 2 ^ 32 →
      (MerkleTree.fromLeaves pair empty leaves).prove i = some p →
        MerkleProof.fromBytes p.toBytes = some p) ∧
    ∀ (b : List UInt8) (p : MerkleProof Bytes32), MerkleProof.fromBytes b = some p →
      (∃ rest, b = p.toBytes ++ rest) ∧
      (∀ rest, MerkleProof.fromBytes (p.toBytes ++ rest) = some p) ∧
      (p.toBytes = b ↔ b.length = 40 + 33 * p.siblings.length) := by
  constructor
  · intro leaves i p hlen hprove
    obtain ⟨hindex, hsiblings⟩ := MerkleTree.prove_bounds hprove
    refine MerkleProof.fromBytes_eq_some.mpr ⟨⟨by omega, by omega⟩, [], ?_⟩
    rw [List.append_nil]
  · intro b p h
    obtain ⟨hfits, rest, rfl⟩ := MerkleProof.fromBytes_eq_some.mp h
    refine ⟨⟨rest, rfl⟩, fun rest' => MerkleProof.fromBytes_eq_some.mpr ⟨hfits, rest', rfl⟩, ?_⟩
    rw [List.length_append, MerkleProof.length_toBytes]
    constructor
    · intro heq
      have hlen := congrArg List.length heq
      rw [List.length_append, MerkleProof.length_toBytes] at hlen
      omega
    · intro hlen
      rw [List.length_eq_zero_iff.mp (by omega : rest.length = 0), List.append_nil]

/-- 32 equal bytes. -/
def sampleHash (b : UInt8) : Bytes32 := .filled b

/-- The proof of the second of two leaves. -/
def sampleProof : MerkleProof Bytes32 := ⟨sampleHash 2, [(.left, sampleHash 1)], 1⟩

theorem proof_bytes_two :
    MerkleProof.fromBytes sampleProof.toBytes = some sampleProof ∧
      MerkleProof.fromBytes (sampleProof.toBytes ++ [7]) = some sampleProof :=
  ⟨(proof_bytes (fun _ r => r) (sampleHash 0)).1 [sampleHash 1, sampleHash 2] 1 sampleProof
      (by decide) (by decide),
    ((proof_bytes (fun _ r => r) (sampleHash 0)).2 sampleProof.toBytes sampleProof
      (by decide +kernel)).2.1 [7]⟩

/-- One byte more reads as the same proof. -/
theorem trailing_byte_ignored : ∃ (b : List UInt8) (p : MerkleProof Bytes32),
    MerkleProof.fromBytes b = some p ∧ p.toBytes ≠ b :=
  ⟨sampleProof.toBytes ++ [7], sampleProof, by decide +kernel, by decide +kernel⟩

end Merkle
