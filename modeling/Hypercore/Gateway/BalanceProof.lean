import Hypercore.Chain.Snapshot
import Hypercore.Gateway.StateProof
/-!
# Hypercore.Gateway.BalanceProof

Which entry a balance proof is for.

The tree is the one that was cached at the end of the last block; the place of the leaf is
looked up among the current balances. A proof is therefore for the entry of the account
that was asked for exactly when as many balances come before it now as did then.
-/

namespace Hypercore

open Exec Merkle

/-! ### Ranks -/

/-- In a list that is sorted strictly, as many elements come before one as its index says. -/
theorem countP_before {α : Type} {R : α → α → Prop} [DecidableRel R]
    (hasymm : ∀ a b, R a b → ¬ R b a) {l : List α} (hl : l.Pairwise R) {i : Nat} {a : α}
    (h : l[i]? = some a) : l.countP (fun b => R b a) = i := by
  induction l generalizing i with
  | nil => simp at h
  | cons b l ih =>
    obtain ⟨hfirst, hrest⟩ := List.pairwise_cons.mp hl
    cases i with
    | zero =>
      obtain rfl := Option.some.inj h
      have hnone : ∀ c ∈ b :: l, ¬ R c b := by
        intro c hc
        rcases List.mem_cons.mp hc with rfl | hc
        · exact fun hcc => hasymm c c hcc hcc
        · exact hasymm b c (hfirst c hc)
      rw [List.countP_eq_zero]
      simpa using hnone
    | succ i =>
      rw [List.getElem?_cons_succ] at h
      rw [List.countP_cons_of_pos (by simpa using hfirst a (List.mem_of_getElem? h)),
        ih hrest h]

/-- The order of the balances in the tree: by account, then by token. -/
def BalanceBefore (k k' : AccountAddress × TokenIndex) : Prop :=
  compare (⟨k.1, k.2⟩ : PairKey AccountAddress TokenIndex) ⟨k'.1, k'.2⟩ = .lt

instance : DecidableRel BalanceBefore := fun k k' => by
  unfold BalanceBefore
  infer_instance

theorem BalanceBefore.asymm {k k' : AccountAddress × TokenIndex} (h : BalanceBefore k k') :
    ¬ BalanceBefore k' k := fun h' =>
  FinMap.KeyLt.asymm (p := ((⟨k.1, k.2⟩ : PairKey _ _), ())) (q := (⟨k'.1, k'.2⟩, ())) h h'

/-- How many entries of a list of balances come before a key. -/
def rank {β : Type} (r : Root (AccountAddress × TokenIndex) β) (k : AccountAddress × TokenIndex) :
    Nat :=
  r.countP fun p => BalanceBefore p.1 k

namespace UnifiedState

variable {u : UnifiedState} {k : AccountAddress × TokenIndex}

theorem pairwise_root (u : UnifiedState) :
    u.root.Pairwise fun p q => BalanceBefore p.1 q.1 := by
  unfold root
  rw [List.pairwise_map]
  exact FinMap.pairwise_toList u.balances

/-- The entry of a key is at its rank. -/
theorem rank_root {i : Nat} {v : Int × Int × Int} (h : u.root[i]? = some (k, v)) :
    rank u.root k = i := by
  unfold rank
  exact countP_before (fun _ _ => BalanceBefore.asymm) u.pairwise_root h

/-- A balance is found at the rank of its key. -/
theorem findIdx_root_eq {b : UnifiedBalance} (h : u.getBalance k.1 k.2 = some b) :
    u.root.findIdx? (fun p => p.1 = k) = some (rank u.root k) := by
  have hmem : (k, b.raw) ∈ u.root :=
    List.mem_map.mpr ⟨(⟨k.1, k.2⟩, b), FinMap.mem_toList.mpr h, rfl⟩
  cases hi : u.root.findIdx? (fun p => p.1 = k) with
  | none =>
    have hnot := List.findIdx?_eq_none_iff.mp hi (k, b.raw) hmem
    simp at hnot
  | some i =>
    obtain ⟨hlt, hkey, -⟩ := List.findIdx?_eq_some_iff_getElem.mp hi
    have hentry : u.root[i]? = some (k, (u.root[i]).2) := by
      rw [List.getElem?_eq_getElem hlt]
      exact congrArg some (Prod.ext (of_decide_eq_true hkey) rfl)
    rw [rank_root hentry]

end UnifiedState

/-! ### The cached tree -/

namespace AppState

variable {s s' : AppState}

/-- The cached tree is that of some balance sheet. -/
def CachesSheet (s : AppState) : Prop :=
  ∀ tree, s.unifiedStateTree = some tree → ∃ u : UnifiedState, tree = u.root

theorem CachesSheet.of_eq (hs : s.CachesSheet) (h : s'.unifiedStateTree = s.unifiedStateTree) :
    s'.CachesSheet := by
  intro tree htree
  rw [h] at htree
  exact hs tree htree

/-- No transaction touches the cached tree. -/
theorem executeTx_tree {tx : Transaction} {t : Timestamp} {r : Except AppError TxResult}
    (h : s.executeTx tx t = .ok (r, s')) : s'.unifiedStateTree = s.unifiedStateTree := by
  rcases executeTx_cases h with ⟨rfl, -⟩ | ⟨a, ra, s₁, -, -, hact, hend⟩
  · rfl
  · have hact' : s₁.unifiedStateTree = s.unifiedStateTree :=
      (executeAction_run hact).invariant (P := fun x => x.unifiedStateTree = s.unifiedStateTree)
        rfl fun _ _ _ hx _ h => by
          rw [← hx]
          exact applyEffect_keeps (f := fun x => x.unifiedStateTree)
            (fun _ _ _ _ _ => rfl) (fun _ _ _ _ _ => rfl) h
    rcases hend with ⟨e, -, -, rfl⟩ | ⟨events, s₂, -, -, hinc, rfl⟩
    · exact hact'
    · obtain ⟨next, -, hinc⟩ := bind_inv hinc
      obtain rfl := pure_inv hinc
      unfold updateTimestampNonce
      split <;> exact hact'

theorem Visited.cachesSheet (h : Visited s) : s.CachesSheet := by
  induction h with
  | genesis _ start =>
    obtain ⟨spot, -, start⟩ := bind_inv start
    obtain ⟨u, -, start⟩ := bind_inv start
    obtain ⟨perp, -, start⟩ := bind_inv start
    obtain rfl := pure_inv start
    intro tree htree
    cases htree
  | step op _ run ih =>
    cases op with
    | tx tx t =>
      obtain ⟨⟨r, s₁⟩, h1, run⟩ := bind_inv run
      obtain rfl := pure_inv run
      exact ih.of_eq (executeTx_tree h1)
    | beginBlock k t =>
      obtain rfl := pure_inv run
      exact ih
    | endBlock ord =>
      obtain ⟨⟨events, s₁⟩, -, run⟩ := bind_inv run
      obtain rfl := pure_inv run
      intro tree htree
      exact ⟨_, (Option.some.inj htree).symm⟩
  | evm root _ ih => exact ih
  | restore ord ord' _ _ run _ _ =>
    obtain ⟨engine, -, run⟩ := bind_inv run
    obtain ⟨spot, -, run⟩ := bind_inv run
    obtain rfl := pure_inv run
    intro tree htree
    cases htree

/-! ### Proofs -/

variable (K : SymbolicKeccak) (s : AppState) (a : AccountAddress) (token : TokenIndex)

/-- A proof that is given for an account and token is for their entry in the cached tree, and
verifies against its root. -/
def ProofMatches : Prop :=
  ∀ proof, s.proveBalance K a token = some proof →
    ∃ tree v, s.unifiedStateTree = some tree ∧ ((a, token), v) ∈ tree ∧
      proof.leafHash = K.hashEntry (K.balanceKey (a, token)) (SymbolicKeccak.balanceValue v) ∧
      proof.verify K.hashPair (K.root (K.unifiedTree tree)) = true

/-- As many balances come before that of an account and token as did when the tree was cached,
and the tree has it; or there are too few leaves for a proof. -/
def NotShifted : Prop :=
  ∀ tree, s.unifiedStateTree = some tree → (s.unifiedState.getBalance a token).isSome →
    rank s.unifiedState.root (a, token) < tree.length →
      (∃ v, ((a, token), v) ∈ tree) ∧
        rank tree (a, token) = rank s.unifiedState.root (a, token)

variable {K s a token}

theorem hashEntry_key {k k' : AccountAddress × TokenIndex} {v v' : Int × Int × Int}
    (h : K.hashEntry (K.balanceKey k) (SymbolicKeccak.balanceValue v) =
      K.hashEntry (K.balanceKey k') (SymbolicKeccak.balanceValue v')) : k = k' := by
  obtain ⟨hkey, -⟩ := List.append_inj (K.injective h) (by simp [SymbolicKeccak.balanceKey])
  obtain ⟨ha, ht⟩ := List.append_inj (List.map_injective_iff.mpr Sum.inl_injective hkey) (by simp)
  exact Prod.ext (addressBytes_injective ha) (List.singleton_injective ht)

/-- Every leaf of the tree has a proof. -/
theorem unifiedTree_prove_isSome {t : Root (AccountAddress × TokenIndex) (Int × Int × Int)}
    {i : Nat} (h : i < t.length) : ((K.unifiedTree t).prove i).isSome := by
  unfold SymbolicKeccak.unifiedTree SymbolicKeccak.tree
  exact MerkleTree.prove_isSome (by rw [List.length_map]; exact h)

/-- What `prove_balance` gives: the proof of the cached leaf at the rank that the balance has
among the current ones. -/
theorem proveBalance_eq_some {proof : MerkleProof K.Digest} :
    s.proveBalance K a token = some proof ↔
      ∃ tree, s.unifiedStateTree = some tree ∧ (s.unifiedState.getBalance a token).isSome ∧
        (K.unifiedTree tree).prove (rank s.unifiedState.root (a, token)) = some proof := by
  unfold proveBalance
  rw [Option.bind_eq_bind, Option.bind_eq_some_iff]
  refine exists_congr fun tree => and_congr_right fun _ => ?_
  rw [Option.bind_eq_bind, Option.bind_eq_some_iff]
  constructor
  · rintro ⟨i, hi, hproof⟩
    obtain ⟨b, hb, -⟩ := findIdx_root hi
    rw [UnifiedState.findIdx_root_eq (k := (a, token)) hb] at hi
    obtain rfl := Option.some.inj hi
    exact ⟨by rw [hb]; rfl, hproof⟩
  · rintro ⟨hsome, hproof⟩
    obtain ⟨b, hb⟩ := Option.isSome_iff_exists.mp hsome
    exact ⟨_, UnifiedState.findIdx_root_eq (k := (a, token)) hb, hproof⟩

/-- **Balance proofs.** In every state of a node, the proof for an account and token is for their
entry in the cached tree exactly when that entry has not shifted since. The proof is for the leaf
at the rank that the entry has in the present sheet, so it is for its own just when that is its
rank in the tree. -/
theorem balance_proof_iff (K : SymbolicKeccak) (hs : Visited s) (a : AccountAddress)
    (token : TokenIndex) : s.ProofMatches K a token ↔ s.NotShifted a token := by
  constructor
  · intro hmatches tree htree hsome hlt
    obtain ⟨u, rfl⟩ := hs.cachesSheet tree htree
    obtain ⟨proof, hproof⟩ := Option.isSome_iff_exists.mp (unifiedTree_prove_isSome (K := K) hlt)
    obtain ⟨tree, v, htree', hmem, hleaf, -⟩ :=
      hmatches proof (proveBalance_eq_some.mpr ⟨_, htree, hsome, hproof⟩)
    obtain rfl := Option.some.inj (htree.symm.trans htree')
    refine ⟨⟨v, hmem⟩, ?_⟩
    obtain ⟨hget, -⟩ := MerkleTree.prove_fromLeaves hproof
    rw [List.getElem?_map] at hget
    obtain ⟨⟨k, w⟩, hentry, hhash⟩ := Option.map_eq_some_iff.mp hget
    obtain rfl := hashEntry_key (hhash.trans hleaf)
    exact UnifiedState.rank_root hentry
  · intro hshift proof hproof
    obtain ⟨tree, htree, hsome, hproof⟩ := proveBalance_eq_some.mp hproof
    obtain ⟨u, rfl⟩ := hs.cachesSheet tree htree
    obtain ⟨hget, hclimb⟩ := MerkleTree.prove_fromLeaves hproof
    rw [List.getElem?_map] at hget
    obtain ⟨entry, hentry, hhash⟩ := Option.map_eq_some_iff.mp hget
    obtain ⟨⟨v, hmem⟩, hrank⟩ := hshift _ htree hsome (List.getElem?_eq_some_iff.mp hentry).1
    obtain ⟨j, hj⟩ := List.mem_iff_getElem?.mp hmem
    rw [UnifiedState.rank_root hj] at hrank
    obtain rfl := hrank
    obtain rfl := Option.some.inj (hj.symm.trans hentry)
    refine ⟨_, v, htree, hmem, hhash.symm, ?_⟩
    unfold MerkleProof.verify
    exact decide_eq_true hclimb

/-- Right after a block every balance has a proof, and it matches. -/
theorem balance_proof_of_block : ∃ s : AppState, Visited s ∧
    (s.proveBalance .numbered 1 0).isSome ∧ s.ProofMatches .numbered 1 0 := by
  obtain ⟨s, hs, htest⟩ := exists_of_test
    (x := nodeRun (usdcGenesis [(1, 1000000000), (3, 1000000000)])
      [.beginBlock 1 1000, .endBlock .sorted])
    (p := fun s => decide (s.unifiedStateTree = some s.unifiedState.root) &&
      (s.unifiedState.getBalance 1 0).isSome &&
      decide (rank s.unifiedState.root (1, 0) < s.unifiedState.root.length)) (by decide +kernel)
  simp only [Bool.and_eq_true, decide_eq_true_eq] at htest
  obtain ⟨⟨htree, hsome⟩, hlt⟩ := htest
  have hvisited : Visited s := (nodeRun_reachable (usdcGenesis_nonneg _) hs).visited
  obtain ⟨proof, hproof⟩ := Option.isSome_iff_exists.mp
    (unifiedTree_prove_isSome (K := .numbered) hlt)
  refine ⟨s, hvisited, ?_, (balance_proof_iff _ hvisited 1 0).mpr ?_⟩
  · rw [proveBalance_eq_some.mpr ⟨_, htree, hsome, hproof⟩]
    rfl
  · intro tree htree' _ _
    obtain rfl := Option.some.inj (htree.symm.trans htree')
    obtain ⟨b, hb⟩ := Option.isSome_iff_exists.mp hsome
    exact ⟨⟨b.raw, List.mem_map.mpr ⟨(⟨1, 0⟩, b), FinMap.mem_toList.mpr hb, rfl⟩⟩, rfl⟩

/-- An account that is credited after a block is given the proof of another account. -/
theorem balance_proof_of_other :
    ∃ (s : AppState) (proof : MerkleProof SymbolicKeccak.numbered.Digest),
    Reachable s ∧ s.proveBalance .numbered 2 0 = some proof ∧
    (∃ v, proof.leafHash = SymbolicKeccak.numbered.hashEntry
      (SymbolicKeccak.numbered.balanceKey (3, 0)) (SymbolicKeccak.balanceValue v)) ∧
    ¬ s.ProofMatches .numbered 2 0 := by
  obtain ⟨s, hs, htest⟩ := exists_of_test
    (x := nodeRun (usdcGenesis [(1, 1000000000), (3, 1000000000)])
      [.beginBlock 1 1000, .endBlock .sorted, .tx (transferTx 0) 2000])
    (p := fun s => decide (s.unifiedStateTree =
        some [((1, 0), (1000000000, 1000000000, 0)), ((3, 0), (1000000000, 1000000000, 0))]) &&
      (s.unifiedState.getBalance 2 0).isSome &&
      decide (rank s.unifiedState.root (2, 0) = 1)) (by decide +kernel)
  simp only [Bool.and_eq_true, decide_eq_true_eq] at htest
  obtain ⟨⟨htree, hsome⟩, hrank⟩ := htest
  obtain ⟨proof, hproof⟩ := Option.isSome_iff_exists.mp
    (unifiedTree_prove_isSome (K := .numbered) (i := 1)
      (t := [((1, 0), (1000000000, 1000000000, 0)), ((3, 0), (1000000000, 1000000000, 0))])
      (by decide))
  have hgiven : s.proveBalance .numbered 2 0 = some proof :=
    proveBalance_eq_some.mpr ⟨_, htree, hsome, by rw [hrank]; exact hproof⟩
  obtain ⟨hget, -⟩ := MerkleTree.prove_fromLeaves hproof
  obtain hleaf := Option.some.inj hget
  refine ⟨s, proof, nodeRun_reachable (usdcGenesis_nonneg _) hs, hgiven, ⟨_, hleaf.symm⟩, ?_⟩
  intro hmatches
  obtain ⟨tree, v, -, -, hhash, -⟩ := hmatches proof hgiven
  have hkey := hashEntry_key (hleaf.trans hhash)
  exact absurd hkey (by decide)

end AppState

end Hypercore
