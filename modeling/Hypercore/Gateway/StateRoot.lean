import Hypercore.Gateway.StateProof
import Hypercore.Lib.HashTree
/-!
# Hypercore.Gateway.StateRoot

The Merkle trees of the state, byte by byte.

Keccak-256 is any function to 32 bytes. It is never assumed to be without collisions as such:
the results ask that nothing which is hashed for the roots and proofs at hand collides.
Leaves and inner nodes are told apart by the length of what is hashed, 64 bytes for an inner
node.
-/

namespace Hypercore

open Merkle

namespace StateTree

variable (keccak256 : List UInt8 → Bytes32)

/-- What `hash_pair` hashes. -/
def joinBytes (left right : Bytes32) : List UInt8 := left.val ++ right.val

/-- Hash two child nodes to create a parent. -/
def hashPair (left right : Bytes32) : Bytes32 := hashJoin keccak256 joinBytes left right

/-- Hash a key-value entry. -/
def hashEntry (key value : List UInt8) : Bytes32 := keccak256 (key ++ value)

/-- Hash arbitrary bytes. -/
def hashBytes (data : List UInt8) : Bytes32 := keccak256 data

/-- Build a tree from sorted key-value entries. -/
def fromEntries (entries : List (List UInt8 × List UInt8)) : MerkleTree Bytes32 :=
  .fromLeaves (hashPair keccak256) (hashBytes keccak256 [])
    (entries.map fun p => hashEntry keccak256 p.1 p.2)

/-- The root of a tree. -/
def root (t : MerkleTree Bytes32) : Bytes32 := t.root (hashBytes keccak256 [])

/-- Verify a proof against a root. -/
def verify (proof : MerkleProof Bytes32) (root : Bytes32) : Bool :=
  proof.verify (hashPair keccak256) root

/-- What the root of a list of entries commits to. -/
def committed (entries : List (List UInt8 × List UInt8)) : HashTree (List UInt8) :=
  .ofList [] (entries.map fun p => p.1 ++ p.2)

/-- All that is hashed to build the tree of a list of entries. -/
def treeInputs (entries : List (List UInt8 × List UInt8)) : List (List UInt8) :=
  (committed entries).inputs keccak256 joinBytes

/-- All that is hashed to verify the proof of an entry. -/
def proofInputs (key value : List UInt8) (proof : MerkleProof Bytes32) : List (List UInt8) :=
  (key ++ value) :: climbInputs keccak256 joinBytes proof.leafHash proof.siblings

variable {keccak256} {entries entries' : List (List UInt8 × List UInt8)} {kl vl : Nat}

theorem joinBytes_inj {a b c d : Bytes32} (h : joinBytes a b = joinBytes c d) :
    a = c ∧ b = d := by
  obtain ⟨ha, hb⟩ := List.append_inj h (a.property.trans c.property.symm)
  exact ⟨Subtype.ext ha, Subtype.ext hb⟩

theorem ne_joinBytes {data : List UInt8} (h : data.length ≠ 64) (a b : Bytes32) :
    data ≠ joinBytes a b := by
  rintro rfl
  refine h ?_
  unfold joinBytes
  rw [List.length_append, a.property, b.property]

/-- Every entry has a key and a value of these lengths. -/
def Sized (kl vl : Nat) (entries : List (List UInt8 × List UInt8)) : Prop :=
  ∀ p ∈ entries, p.1.length = kl ∧ p.2.length = vl

theorem root_fromEntries :
    root keccak256 (fromEntries keccak256 entries) =
      (committed entries).digest keccak256 joinBytes := by
  have h := HashTree.root_eq_digest keccak256 joinBytes [] (entries.map fun p => p.1 ++ p.2)
  rw [List.map_map] at h
  exact h

/-- Entries that are not 64 bytes long are never taken for inner nodes. -/
theorem committed_apart (hsized : Sized kl vl entries) (hlen : kl + vl ≠ 64) :
    (committed entries).Apart joinBytes := by
  intro data hdata
  refine ne_joinBytes ?_
  cases entries with
  | nil =>
    obtain rfl := List.mem_singleton.mp hdata
    exact nofun
  | cons p rest =>
    obtain ⟨q, hq, rfl⟩ := List.mem_map.mp
      ((HashTree.mem_leaves_ofList (by simp)).mp hdata)
    obtain ⟨hk, hv⟩ := hsized q hq
    rw [List.length_append, hk, hv]
    exact hlen

variable {key value : List UInt8}

/-- The bytes of an entry are those of a listed one only if it is listed. -/
theorem mem_of_append_mem (hsized : Sized kl vl entries) (hkey : key.length = kl)
    (h : key ++ value ∈ entries.map fun p => p.1 ++ p.2) :
    (key, value) ∈ entries := by
  obtain ⟨p, hp, heq⟩ := List.mem_map.mp h
  obtain ⟨hk, hv⟩ := List.append_inj heq ((hsized p hp).1.trans hkey.symm)
  rw [← hk, ← hv]
  exact hp

/-- A proof that verifies is of data that is committed. -/
theorem mem_leaves_of_verify (hlen : kl + vl ≠ 64) (hsized : Sized kl vl entries)
    {proof : MerkleProof Bytes32} (hkey : key.length = kl) (hvalue : value.length = vl)
    (hleaf : proof.leafHash = hashEntry keccak256 key value) (hfree : Set.InjOn keccak256
      {x | x ∈ treeInputs keccak256 entries ∨ x ∈ proofInputs keccak256 key value proof})
    (hverify : verify keccak256 proof (root keccak256 (fromEntries keccak256 entries)) = true) :
    key ++ value ∈ (committed entries).leaves := by
  have hclimb := of_decide_eq_true hverify
  unfold MerkleProof.computeRoot at hclimb
  have hdata : (key ++ value).length ≠ 64 := by
    rw [List.length_append, hkey, hvalue]
    exact hlen
  rw [root_fromEntries, hleaf] at hclimb
  exact mem_leaves_of_climb hfree (fun _ _ _ _ => joinBytes_inj) (ne_joinBytes hdata)
    (.inr (.head _)) (fun x hx => .inl hx) (committed_apart hsized hlen)
    (fun x hx => .inr (.tail _ (hleaf ▸ hx))) hclimb

/-- **Proofs.** Every entry has a proof that verifies against the root, and a proof of any length
that verifies is of one of the entries. A proof that verifies folds to the root, so as nothing
collides its leaf is a leaf of the tree, and the sizes of keys and values tell which entry that
is. -/
theorem proofs_complete_and_sound (hlen : kl + vl ≠ 64) (hne : entries ≠ [])
    (hsized : Sized kl vl entries) :
    (∀ i (hi : i < entries.length), ∃ proof,
      (fromEntries keccak256 entries).prove i = some proof ∧
      proof.leafHash = hashEntry keccak256 entries[i].1 entries[i].2 ∧
      verify keccak256 proof (root keccak256 (fromEntries keccak256 entries)) = true) ∧
    ∀ (proof : MerkleProof Bytes32) key value, key.length = kl → value.length = vl →
      proof.leafHash = hashEntry keccak256 key value →
      Set.InjOn keccak256
        {x | x ∈ treeInputs keccak256 entries ∨ x ∈ proofInputs keccak256 key value proof} →
      verify keccak256 proof (root keccak256 (fromEntries keccak256 entries)) = true →
      (key, value) ∈ entries := by
  constructor
  · intro i hi
    have hi' : i < (entries.map fun p => hashEntry keccak256 p.1 p.2).length := by
      rw [List.length_map]
      exact hi
    obtain ⟨proof, hproof⟩ := Option.isSome_iff_exists.mp
      (@MerkleTree.prove_isSome _ (hashPair keccak256) (hashBytes keccak256 []) _ _ hi')
    obtain ⟨hleaf, hroot⟩ := MerkleTree.prove_fromLeaves hproof
    rw [List.getElem?_map, List.getElem?_eq_getElem hi] at hleaf
    exact ⟨proof, hproof, (Option.some.inj hleaf).symm, decide_eq_true hroot⟩
  · intro proof key value hkey hvalue hleaf hfree hverify
    have hmem := mem_leaves_of_verify hlen hsized hkey hvalue hleaf hfree hverify
    refine mem_of_append_mem hsized hkey ((HashTree.mem_leaves_ofList ?_).mp hmem)
    simpa using hne

/-- A polynomial of the bytes, which keeps apart what is hashed below. -/
def toyHash (data : List UInt8) : Bytes32 :=
  ⟨beBytes 32 (data.foldl (fun h b => 257 * h + b.toNat + 1) 0), length_beBytes ..⟩

/-- Whether it keeps apart what is hashed for the tree of a list and for the proof of one of
its entries. -/
def keepsApart (entries : List (List UInt8 × List UInt8)) (i : Nat) : Bool :=
  match entries[i]?, (fromEntries toyHash entries).prove i with
  | some (key, value), some proof =>
    let hashed := treeInputs toyHash entries ++ proofInputs toyHash key value proof
    hashed.all fun x => hashed.all fun y => toyHash x = toyHash y → x = y
  | _, _ => false

theorem injOn_of_keepsApart {i : Nat} {proof : MerkleProof Bytes32}
    (h : keepsApart entries i = true) (hentry : entries[i]? = some (key, value))
    (hproof : (fromEntries toyHash entries).prove i = some proof) : Set.InjOn toyHash
      {x | x ∈ treeInputs toyHash entries ∨ x ∈ proofInputs toyHash key value proof} := by
  unfold keepsApart at h
  simp only [hentry, hproof, List.all_eq_true, decide_eq_true_eq] at h
  exact fun x hx y hy => h x (List.mem_append.mpr hx) y (List.mem_append.mpr hy)

/-- Three entries of the lengths of a balance: the last one has no neighbour. -/
def threeEntries : List (List UInt8 × List UInt8) :=
  [1, 2, 3].map fun n => (List.replicate 21 n, List.replicate 48 n)

theorem proofs_threeEntries : ∃ proof,
    (fromEntries toyHash threeEntries).prove 2 = some proof ∧ proof.siblings.length = 2 ∧
    verify toyHash proof (root toyHash (fromEntries toyHash threeEntries)) = true ∧
    (List.replicate 21 3, List.replicate 48 3) ∈ threeEntries := by
  obtain ⟨hcomplete, hsound⟩ := @proofs_complete_and_sound toyHash threeEntries 21 48
    (by decide) (by decide) (by unfold Sized; decide)
  obtain ⟨proof, hproof, hleaf, hverify⟩ := hcomplete 2 (by decide)
  have hlength : (((fromEntries toyHash threeEntries).prove 2).map (·.siblings.length)) =
      some 2 := by
    decide +kernel
  rw [hproof] at hlength
  exact ⟨proof, hproof, Option.some.inj hlength, hverify, hsound proof _ _ rfl rfl hleaf
    (injOn_of_keepsApart (by decide +kernel) rfl hproof) hverify⟩

/-- The leaves of what is committed, for entries that are not empty. -/
theorem mem_committed (hsized : Sized kl vl entries) (hpos : 0 < kl + vl) (hkey : key.length = kl)
    (hvalue : value.length = vl) :
    key ++ value ∈ (committed entries).leaves ↔ (key, value) ∈ entries := by
  cases entries with
  | nil =>
    refine ⟨fun h => ?_, fun h => absurd h List.not_mem_nil⟩
    have hlen := congrArg List.length (List.mem_singleton.mp h)
    rw [List.length_append, hkey, hvalue, List.length_nil] at hlen
    omega
  | cons p rest =>
    unfold committed
    rw [HashTree.mem_leaves_ofList (by simp)]
    exact ⟨mem_of_append_mem hsized hkey, fun h => List.mem_map.mpr ⟨_, h, rfl⟩⟩

/-- Roots that agree are of the same set of entries. -/
theorem mem_iff_of_root_eq (hpos : 0 < kl + vl) (hlen : kl + vl ≠ 64) (hsized : Sized kl vl entries)
    (hsized' : Sized kl vl entries') (hfree : Set.InjOn keccak256
      {x | x ∈ treeInputs keccak256 entries ∨ x ∈ treeInputs keccak256 entries'})
    (h : root keccak256 (fromEntries keccak256 entries) =
      root keccak256 (fromEntries keccak256 entries')) (hkey : key.length = kl)
    (hvalue : value.length = vl) :
    (key, value) ∈ entries ↔ (key, value) ∈ entries' := by
  rw [root_fromEntries, root_fromEntries] at h
  have heq := HashTree.digest_inj hfree (fun _ _ _ _ => joinBytes_inj) (fun _ hx => .inl hx)
    (fun _ hx => .inr hx) (committed_apart hsized hlen) (committed_apart hsized' hlen) h
  rw [← mem_committed hsized hpos hkey hvalue, heq, mem_committed hsized' hpos hkey hvalue]

end StateTree

/-! ### Balances -/

@[simp] theorem length_i128Bytes (v : Int) : (i128Bytes v).length = 16 := length_leBytes ..

theorem i128Bytes_inj {v w : Int} (hv : Int128.InRange v) (hw : Int128.InRange w)
    (h : i128Bytes v = i128Bytes w) : v = w := by
  unfold Int128.InRange at hv hw
  have hnat := leBytes_inj (by omega) (by omega) h
  omega

namespace StateTree

/-- The bytes of one balance: 21 of the key, 48 of the raw values. -/
def balanceEntry (p : (AccountAddress × TokenIndex) × (Int × Int × Int)) :
    List UInt8 × List UInt8 :=
  (addressBytes p.1.1 ++ [p.1.2], SymbolicKeccak.balanceValue p.2)

theorem sized_balances (r : Root (AccountAddress × TokenIndex) (Int × Int × Int)) :
    Sized 21 48 (r.map balanceEntry) := by
  intro q hq
  obtain ⟨p, -, rfl⟩ := List.mem_map.mp hq
  simp [balanceEntry, SymbolicKeccak.balanceValue]

/-- Raw values of a balance that are `i128`s. -/
def RawInRange (v : Int × Int × Int) : Prop :=
  Int128.InRange v.1 ∧ Int128.InRange v.2.1 ∧ Int128.InRange v.2.2

theorem balanceEntry_inj {p q : (AccountAddress × TokenIndex) × (Int × Int × Int)}
    (hp : RawInRange p.2) (hq : RawInRange q.2) (h : balanceEntry p = balanceEntry q) : p = q := by
  obtain ⟨⟨a, k⟩, t, c, e⟩ := p
  obtain ⟨⟨b, l⟩, t', c', e'⟩ := q
  obtain ⟨hkey, hvalue⟩ := Prod.mk.inj h
  obtain ⟨ha, hk⟩ := List.append_inj hkey (by simp)
  obtain ⟨hviews, he⟩ := List.append_inj hvalue (by simp)
  obtain ⟨ht, hc⟩ := List.append_inj hviews (by simp)
  obtain rfl : a = b := addressBytes_injective ha
  obtain rfl : k = l := List.singleton_injective hk
  obtain rfl : t = t' := i128Bytes_inj hp.1 hq.1 ht
  obtain rfl : c = c' := i128Bytes_inj hp.2.1 hq.2.1 hc
  obtain rfl : e = e' := i128Bytes_inj hp.2.2 hq.2.2 he
  rfl

/-- An entry is in the tree of a list of balances exactly when it is one of them. -/
theorem balanceEntry_mem {r : Root (AccountAddress × TokenIndex) (Int × Int × Int)}
    (hr : ∀ p ∈ r, RawInRange p.2) {p : (AccountAddress × TokenIndex) × (Int × Int × Int)}
    (hp : RawInRange p.2) : balanceEntry p ∈ r.map balanceEntry ↔ p ∈ r := by
  refine ⟨fun h => ?_, fun h => List.mem_map.mpr ⟨p, h, rfl⟩⟩
  obtain ⟨q, hq, heq⟩ := List.mem_map.mp h
  rw [← balanceEntry_inj (hr q hq) hp heq]
  exact hq

end StateTree

namespace UnifiedState

variable (keccak256 : List UInt8 → Bytes32) (u : UnifiedState)

/-- `build_unified_state_tree`. -/
def buildUnifiedStateTree : MerkleTree Bytes32 :=
  StateTree.fromEntries keccak256 (u.root.map StateTree.balanceEntry)

/-- `compute_unified_state_root`. -/
def computeUnifiedStateRoot : Bytes32 :=
  StateTree.root keccak256 (u.buildUnifiedStateTree keccak256)

/-- All that is hashed for the root. -/
def rootInputs : List (List UInt8) :=
  StateTree.treeInputs keccak256 (u.root.map StateTree.balanceEntry)

/-- Every raw value is an `i128`. -/
def Representable : Prop :=
  ∀ a token b, u.getBalance a token = some b → StateTree.RawInRange b.raw

variable {keccak256 u} {u' : UnifiedState}

theorem mem_root {p : (AccountAddress × TokenIndex) × (Int × Int × Int)} :
    p ∈ u.root ↔ (u.getBalance p.1.1 p.1.2).map UnifiedBalance.raw = some p.2 := by
  obtain ⟨⟨a, token⟩, v⟩ := p
  unfold root
  rw [List.mem_map, Option.map_eq_some_iff]
  constructor
  · rintro ⟨⟨k, b⟩, hmem, heq⟩
    obtain ⟨hkey, hraw⟩ := Prod.mk.inj heq
    obtain ⟨rfl, rfl⟩ := Prod.mk.inj hkey
    exact ⟨b, FinMap.mem_toList.mp hmem, hraw⟩
  · rintro ⟨b, hb, hraw⟩
    exact ⟨(⟨a, token⟩, b), FinMap.mem_toList.mpr hb, Prod.ext rfl hraw⟩

theorem Representable.rawInRange (h : u.Representable)
    {p : (AccountAddress × TokenIndex) × (Int × Int × Int)} (hp : p ∈ u.root) :
    StateTree.RawInRange p.2 := by
  obtain ⟨b, hb, hraw⟩ := Option.map_eq_some_iff.mp (mem_root.mp hp)
  rw [← hraw]
  exact h _ _ b hb

/-- **Commitment.** Balance sheets with one root have the same raw values, when nothing that is
hashed for the two roots collides. Equal roots have equal leaves, level by level, and a leaf tells
key and value. -/
theorem unified_root_binds (hu : u.Representable) (hu' : u'.Representable)
    (hfree : Set.InjOn keccak256 {x | x ∈ u.rootInputs keccak256 ∨ x ∈ u'.rootInputs keccak256})
    (h : u.computeUnifiedStateRoot keccak256 = u'.computeUnifiedStateRoot keccak256)
    (a : AccountAddress) (token : TokenIndex) :
    (u.getBalance a token).map UnifiedBalance.raw =
      (u'.getBalance a token).map UnifiedBalance.raw := by
  have hentries : ∀ p, StateTree.RawInRange p.2 → (p ∈ u.root ↔ p ∈ u'.root) := by
    intro p hp
    obtain ⟨hkey, hvalue⟩ := StateTree.sized_balances [p] _ (.head _)
    rw [← StateTree.balanceEntry_mem (fun _ => hu.rawInRange) hp,
      ← StateTree.balanceEntry_mem (fun _ => hu'.rawInRange) hp]
    exact StateTree.mem_iff_of_root_eq (by decide) (by decide) (StateTree.sized_balances _)
      (StateTree.sized_balances _) hfree h hkey hvalue
  refine Option.ext fun v => ?_
  have hmem : ∀ w : UnifiedState, (w.getBalance a token).map UnifiedBalance.raw = some v ↔
      ((a, token), v) ∈ w.root := fun w => (mem_root (u := w) (p := ((a, token), v))).symm
  rw [hmem, hmem]
  exact ⟨fun hv => (hentries _ (hu.rawInRange hv)).mp hv,
    fun hv => (hentries _ (hu'.rawInRange hv)).mpr hv⟩

/-- Three balances of five, on a scale. -/
def fives (places : Nat) : UnifiedState :=
  [1, 2, 3].foldl (fun u a => u.setBalance a 0 ⟨⟨5, places⟩, ⟨5, places⟩, ⟨0, places⟩⟩) new

/-- The scale of a balance is not in the root. -/
theorem unified_root_binds_fives :
    ((fives 6).getBalance 3 0).map UnifiedBalance.raw =
      ((fives 8).getBalance 3 0).map UnifiedBalance.raw := by
  have hrepr : ∀ places, (fives places).Representable := by
    intro places a token b hb
    have hfive : StateTree.RawInRange (5, 5, 0) := ⟨by decide, by decide, by decide⟩
    unfold fives at hb
    simp only [List.foldl_cons, List.foldl_nil, getBalance_setBalance] at hb
    split at hb
    · exact Option.some.inj hb ▸ hfive
    split at hb
    · exact Option.some.inj hb ▸ hfive
    split at hb
    · exact Option.some.inj hb ▸ hfive
    · cases hb
  have hfree : ∀ x ∈ rootInputs StateTree.toyHash (fives 6),
      ∀ y ∈ rootInputs StateTree.toyHash (fives 6),
      StateTree.toyHash x = StateTree.toyHash y → x = y := by
    decide +kernel
  refine @unified_root_binds StateTree.toyHash (fives 6) (fives 8) (hrepr 6) (hrepr 8) ?_
    (by decide +kernel) 3 0
  have hsame : rootInputs StateTree.toyHash (fives 8) = rootInputs StateTree.toyHash (fives 6) := by
    decide +kernel
  rw [hsame]
  exact fun x hx y hy => hfree x (hx.elim id id) y (hy.elim id id)

end UnifiedState

/-! ### Light clients -/

namespace AppState

variable (keccak256 : List UInt8 → Bytes32) (s : AppState)

/-- The balances the unified-state root is of: those of the cached tree, else the current ones. -/
def servedBalances : Root (AccountAddress × TokenIndex) (Int × Int × Int) :=
  s.unifiedStateTree.getD s.unifiedState.root

/-- `verify_balance_proof`: against the current state root. -/
def verifyBalanceProof (address : AccountAddress) (token : TokenIndex) (balance : UnifiedBalance)
    (proof : MerkleProof Bytes32) : Bool :=
  let entry := StateTree.balanceEntry ((address, token), balance.raw)
  proof.leafHash = StateTree.hashEntry keccak256 entry.1 entry.2 ∧
    StateTree.verify keccak256 proof (StateTree.root keccak256
      (StateTree.fromEntries keccak256 (s.servedBalances.map StateTree.balanceEntry)))

variable {keccak256 s}

/-- A balance that verifies is one of those the root is of. The proof folds to the served root, so
its leaf is a leaf of the tree, and a leaf tells its entry. -/
theorem mem_of_verifyBalanceProof {address : AccountAddress} {token : TokenIndex}
    {balance : UnifiedBalance} {proof : MerkleProof Bytes32}
    (hserved : ∀ p ∈ s.servedBalances, StateTree.RawInRange p.2)
    (hraw : StateTree.RawInRange balance.raw)
    (hfree : Set.InjOn keccak256
      {x | x ∈ StateTree.treeInputs keccak256 (s.servedBalances.map StateTree.balanceEntry) ∨
        x ∈ StateTree.proofInputs keccak256
          (StateTree.balanceEntry ((address, token), balance.raw)).1
          (StateTree.balanceEntry ((address, token), balance.raw)).2 proof})
    (h : s.verifyBalanceProof keccak256 address token balance proof = true) :
    ((address, token), balance.raw) ∈ s.servedBalances := by
  obtain ⟨hleaf, hverify⟩ := of_decide_eq_true h
  obtain ⟨hkey, hvalue⟩ :=
    StateTree.sized_balances [((address, token), balance.raw)] _ (.head _)
  have hsized := StateTree.sized_balances s.servedBalances
  have hmem := StateTree.mem_leaves_of_verify (by decide) hsized hkey hvalue hleaf hfree hverify
  rw [StateTree.mem_committed hsized (by decide) hkey hvalue] at hmem
  exact (StateTree.balanceEntry_mem hserved hraw).mp hmem

/-- A node with three balances of five. -/
def holdsFives : AppState := { AppState.new with unifiedState := UnifiedState.fives 6 }

theorem fives_verified : ∃ proof,
    holdsFives.verifyBalanceProof StateTree.toyHash 3 0 ⟨⟨5, 6⟩, ⟨5, 6⟩, ⟨0, 6⟩⟩ proof = true ∧
      ((3, 0), (5, 5, 0)) ∈ holdsFives.servedBalances := by
  have hserved : holdsFives.servedBalances =
      [((1, 0), (5, 5, 0)), ((2, 0), (5, 5, 0)), ((3, 0), (5, 5, 0))] := by
    decide +kernel
  have hfive : StateTree.RawInRange (5, 5, 0) := ⟨by decide, by decide, by decide⟩
  obtain ⟨proof, hproof, hverify⟩ := (Option.any_eq_true
      (holdsFives.verifyBalanceProof StateTree.toyHash 3 0 ⟨⟨5, 6⟩, ⟨5, 6⟩, ⟨0, 6⟩⟩)
      ((StateTree.fromEntries StateTree.toyHash
        (holdsFives.servedBalances.map StateTree.balanceEntry)).prove 2)).mp (by decide +kernel)
  refine ⟨proof, hverify, @mem_of_verifyBalanceProof StateTree.toyHash holdsFives 3 0
    ⟨⟨5, 6⟩, ⟨5, 6⟩, ⟨0, 6⟩⟩ proof (by simp [hserved, hfive]) hfive ?_ hverify⟩
  exact StateTree.injOn_of_keepsApart (by decide +kernel) (by rw [hserved]; rfl) hproof

end AppState

end Hypercore
