import Hypercore.Gateway.Handlers
import Hypercore.Chain.Run
import Hypercore.Lib.Merkle
/-!
# Hypercore.Gateway.StateProof

What the gateway tells light clients: `StateInfo` and `StateProof`.

Roots and app hashes are lists of what goes into them everywhere else
(`Root`, `AppHash`); here they are hashed byte by byte as the source does it, with
Keccak-256 as a parameter that has no collisions (`SymbolicKeccak`).

A proof that is given climbs to the root that is served (`proveBalance_climbs`), since both
come from the tree that was cached at the end of a block. Whose entry it proves is another
matter: the balance beside it is the current one. The app hash of `StateInfo` hashes two
roots alone and is the app hash of no block.
-/

namespace Hypercore

open Exec Int128 Merkle Gateway

/-! ### Hashing -/

namespace SymbolicKeccak

variable (K : SymbolicKeccak)

/-- Hash two child nodes to create a parent. -/
def hashPair (left right : K.Digest) : K.Digest := K.keccak [.inr left, .inr right]

/-- Hash a key-value entry. -/
def hashEntry (key : List (UInt8 ⊕ K.Digest)) (value : List UInt8) : K.Digest :=
  K.keccak (key ++ value.map .inl)

/-- `MerkleTree::from_entries`, with the bytes of keys and values. -/
def tree {κ ν : Type} (key : κ → List (UInt8 ⊕ K.Digest)) (value : ν → List UInt8)
    (entries : Root κ ν) : MerkleTree K.Digest :=
  .fromLeaves K.hashPair (K.hashBytes []) (entries.map fun p => K.hashEntry (key p.1) (value p.2))

/-- The root of a tree. -/
def root (t : MerkleTree K.Digest) : K.Digest := t.root (K.hashBytes [])

/-- Key of a balance. -/
def balanceKey (k : AccountAddress × TokenIndex) : List (UInt8 ⊕ K.Digest) :=
  (addressBytes k.1 ++ [k.2]).map .inl

/-- Value of a balance. -/
def balanceValue (v : Int × Int × Int) : List UInt8 :=
  i128Bytes v.1 ++ i128Bytes v.2.1 ++ i128Bytes v.2.2

def unifiedTree (r : Root (AccountAddress × TokenIndex) (Int × Int × Int)) :
    MerkleTree K.Digest := K.tree K.balanceKey balanceValue r

def nonceTree (r : Root AccountAddress Nat) : MerkleTree K.Digest :=
  K.tree (fun a => (addressBytes a).map .inl) (leBytes 8) r

def accountMarketKey (k : AccountAddress × MarketId) : List (UInt8 ⊕ K.Digest) :=
  (addressBytes k.1 ++ [k.2]).map .inl

def positionsTree (r : Root (AccountAddress × MarketId) (Int × Int × Int × Int)) :
    MerkleTree K.Digest :=
  K.tree K.accountMarketKey (fun v => i128Bytes v.1 ++ i128Bytes v.2.1 ++ i128Bytes v.2.2.1 ++
    i128Bytes v.2.2.2) r

def ordersTree (r : Root (MarketId × OrderId) (AccountAddress × OrderSide × Int × Int × Int)) :
    MerkleTree K.Digest :=
  K.tree (fun k => (k.1 :: leBytes 8 k.2).map .inl) (fun v => addressBytes v.1 ++
    [if v.2.1 = .buy then 0 else 1] ++ i128Bytes v.2.2.1 ++ i128Bytes v.2.2.2.1 ++
    i128Bytes v.2.2.2.2) r

def marketsTree (r : Root MarketId (Int × Int × Int × Int × Int)) : MerkleTree K.Digest :=
  K.tree (fun m => [.inl m]) (fun v => i128Bytes v.1 ++ i128Bytes v.2.1 ++
    i128Bytes v.2.2.1 ++ i128Bytes v.2.2.2.1 ++ i128Bytes v.2.2.2.2) r

def leverageTree (r : Root (AccountAddress × MarketId) UInt8) : MerkleTree K.Digest :=
  K.tree K.accountMarketKey (fun l => [l]) r

/-- A client order id enters by its own hash. -/
def cloidTree (r : Root (AccountAddress × ClientOrderId) (MarketId × OrderId)) :
    MerkleTree K.Digest :=
  K.tree (fun k => (addressBytes k.1).map .inl ++ [.inr (K.hashBytes k.2.toUTF8.toList)])
    (fun v => v.1 :: leBytes 8 v.2) r

/-- `scalars_hash_from_engine`. -/
def scalarsHash (insuranceFund : Int) (nextOrderId : OrderId) : K.Digest :=
  K.hashBytes (i128Bytes insuranceFund ++ leBytes 8 nextOrderId)

/-- What `compute_app_hash` hashes, in its order. -/
def appHashData (inputs : HashInputs) (prev : K.Digest) : List (UInt8 ⊕ K.Digest) :=
  (leBytes 8 inputs.height ++ leBytes 8 inputs.timestamp).map .inl ++
    [.inr prev, .inr (K.root (K.unifiedTree inputs.unifiedState)),
      .inr (K.root (K.nonceTree inputs.nonces)), .inr (K.root (K.positionsTree inputs.positions)),
      .inr (K.root (K.ordersTree inputs.orders)), .inr (K.root (K.marketsTree inputs.markets)),
      .inr (K.root (K.leverageTree inputs.leverage)),
      .inr (K.scalarsHash inputs.insuranceFund inputs.nextOrderId),
      .inr (K.root (K.cloidTree inputs.cloids))] ++
    (inputs.evmRoot.toList.flatMap (leBytes 32)).map .inl

/-- The bytes of an app hash. Before the first block they are zero. -/
def appHash : AppHash → K.Digest
  | [] => K.zero
  | inputs :: prev => K.keccak (K.appHashData inputs (appHash prev))

end SymbolicKeccak

/-! ### The answers -/

/-- The answer to `StateInfo`. -/
structure StateInfo (K : SymbolicKeccak) where
  blockHeight : BlockHeight
  appHash : K.Digest
  unifiedState : K.Digest
  nonces : K.Digest

/-- The answer to `StateProof` when there is a proof. -/
structure StateProof (K : SymbolicKeccak) where
  user : AccountAddress
  token : TokenIndex
  balance : UnifiedBalance
  proof : MerkleProof K.Digest
  root : K.Digest
  verified : Bool

/-- The raw values of a balance, as the tree has them. -/
def UnifiedBalance.raw (b : UnifiedBalance) : Int × Int × Int :=
  (b.total.value, b.coreView.value, b.evmView.value)

/-- A served proof is of the served balance, and belongs to the served root. -/
def StateProof.Coherent {K : SymbolicKeccak} (p : StateProof K) : Prop :=
  K.hashEntry (K.balanceKey (p.user, p.token)) (SymbolicKeccak.balanceValue p.balance.raw) =
      p.proof.leafHash ∧
    p.proof.verify K.hashPair p.root = true

namespace AppState

variable (K : SymbolicKeccak) (s : AppState)

/-- `get_unified_state_root`: of the cached tree, else of the current balances. -/
def getUnifiedStateRoot : K.Digest :=
  K.root (K.unifiedTree (s.unifiedStateTree.getD s.unifiedState.root))

/-- `get_nonce_root`. -/
def getNonceRoot : K.Digest := K.root (K.nonceTree (s.nonceTree.getD s.nonces.toList))

/-- `prove_balance`: the place of the balance among the current ones, in the cached tree. -/
def proveBalance (a : AccountAddress) (token : TokenIndex) : Option (MerkleProof K.Digest) := do
  let tree ← s.unifiedStateTree
  let leafIndex ← s.unifiedState.root.findIdx? fun p => p.1 = (a, token)
  (K.unifiedTree tree).prove leafIndex

/-- `StateInfo`. -/
def stateInfo : StateInfo K where
  blockHeight := s.height
  appHash := K.keccak [.inr (s.getUnifiedStateRoot K), .inr (s.getNonceRoot K)]
  unifiedState := s.getUnifiedStateRoot K
  nonces := s.getNonceRoot K

/-- `StateProof`. Without a proof the answer says that there is no balance. -/
def stateProof (user : String) (token : TokenIndex) :
    Except HandlerError (Option (StateProof K)) := do
  let address ← parseAddress user
  match s.proveBalance K address token with
  | none => return none
  | some proof =>
    return some {
      user := address
      token
      balance := (s.unifiedState.getBalance address token).getD (.new ⟨0, tokenDecimals token⟩)
      proof
      root := s.getUnifiedStateRoot K
      verified := proof.verify K.hashPair (s.getUnifiedStateRoot K) }

/-- The served app hash is the one that was committed for the served height. -/
def InfoCommitted : Prop :=
  ∃ h, s.blockHashes[(s.stateInfo K).blockHeight]? = some h ∧
    (s.stateInfo K).appHash = K.appHash h

/-- What a light client needs of the answers. -/
structure Verifiable : Prop where
  coherent : ∀ user token p, s.stateProof K user token = .ok (some p) → p.Coherent
  committed : s.InfoCommitted K

variable {K s}

/-- The entry of a balance, found by its key. -/
theorem findIdx_root {u : UnifiedState} {a : AccountAddress} {token : TokenIndex} {i : Nat}
    (h : (u.root.findIdx? fun p => p.1 = (a, token)) = some i) :
    ∃ b, u.getBalance a token = some b ∧ u.root[i]? = some ((a, token), b.raw) := by
  obtain ⟨hi, hkey, -⟩ := List.findIdx?_eq_some_iff_getElem.mp h
  have hget := List.getElem?_eq_getElem hi
  obtain ⟨⟨k, b⟩, hmem, hentry⟩ := List.mem_map.mp (List.getElem_mem hi)
  have hk : (k.fst, k.snd) = (a, token) := by
    rw [← hentry] at hkey
    exact of_decide_eq_true hkey
  obtain ⟨rfl, rfl⟩ := Prod.mk.inj hk
  refine ⟨b, FinMap.mem_toList.mp hmem, ?_⟩
  rw [hget, ← hentry]
  rfl

/-- A proof that is given climbs to the root that is served. -/
theorem proveBalance_climbs {a : AccountAddress} {token : TokenIndex}
    {proof : MerkleProof K.Digest} (h : s.proveBalance K a token = some proof) :
    proof.verify K.hashPair (s.getUnifiedStateRoot K) = true := by
  obtain ⟨tree, htree, h⟩ := Option.bind_eq_some_iff.mp h
  obtain ⟨i, -, h⟩ := Option.bind_eq_some_iff.mp h
  unfold getUnifiedStateRoot
  rw [htree]
  exact decide_eq_true (MerkleTree.prove_fromLeaves h).2

/-- The bytes that `StateInfo` hashes are those of no block. -/
theorem appHash_ne (h : AppHash) : (s.stateInfo K).appHash ≠ K.appHash h := by
  cases h with
  | nil => exact K.ne_zero _
  | cons inputs prev =>
    intro heq
    have hlen := congrArg List.length (K.injective heq)
    simp only [SymbolicKeccak.appHashData, leBytes, List.length_append, List.length_map,
      List.length_range, List.length_cons, List.length_nil] at hlen
    omega

/-- **Light clients.** In no state is the served app hash the one that was committed, nor that of
any other block, and so in none can the answers be verified. The two hashes are taken over inputs
of different lengths. -/
theorem never_verifiable (K : SymbolicKeccak) (s : AppState) :
    (∀ h, (s.stateInfo K).appHash ≠ K.appHash h) ∧ ¬ s.Verifiable K := by
  refine ⟨fun h => appHash_ne h, fun hv => ?_⟩
  obtain ⟨h, -, heq⟩ := hv.committed
  exact appHash_ne h heq

/-- After its first block a node has committed an app hash for its height, and serves another
one for it. -/
theorem committed_hash_not_served : ∃ s h, Reachable s ∧ s.blockHashes[s.height]? = some h ∧
    (s.stateInfo .numbered).blockHeight = s.height ∧
    (s.stateInfo .numbered).appHash ≠ SymbolicKeccak.numbered.appHash h := by
  obtain ⟨s, hs, htest⟩ := exists_of_test
    (x := nodeRun (usdcGenesis [(1, 1000000000)]) [.beginBlock 1 1000, .endBlock .sorted])
    (p := fun s => (s.blockHashes[s.height]?).isSome) (by decide +kernel)
  obtain ⟨h, hh⟩ := Option.isSome_iff_exists.mp htest
  exact ⟨s, h, nodeRun_reachable (usdcGenesis_nonneg _) hs, hh, rfl, appHash_ne h⟩

end AppState

end Hypercore
