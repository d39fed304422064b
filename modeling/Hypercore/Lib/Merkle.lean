import Mathlib.Data.List.Basic
import Mathlib.Tactic.Common
/-!
# Hypercore.Lib.Merkle

Binary Merkle trees over any type of digests and any function that combines two.

A level of odd length pairs its last node with itself, and so does a single leaf. The
main result is that the proof of a leaf climbs to the root (`prove_fromLeaves`).
-/

namespace Merkle

universe u

/-- Position of a sibling. -/
inductive ProofDirection
  | left
  | right
  deriving DecidableEq, Repr

variable {H : Type u} (pair : H → H → H)

/-- A Merkle proof for a single leaf. -/
structure MerkleProof (H : Type u) where
  leafHash : H
  /-- Siblings from leaf to root. -/
  siblings : List (ProofDirection × H)
  leafIndex : Nat
  deriving DecidableEq

/-- One step up, next to a sibling. -/
def climbStep (current : H) (sibling : ProofDirection × H) : H :=
  match sibling.1 with
  | .left => pair sibling.2 current
  | .right => pair current sibling.2

namespace MerkleProof

/-- The root from this proof. -/
def computeRoot (p : MerkleProof H) : H := p.siblings.foldl (climbStep pair) p.leafHash

/-- Verify the proof against a root. -/
def verify [DecidableEq H] (p : MerkleProof H) (root : H) : Bool := p.computeRoot pair = root

end MerkleProof

/-- A Merkle tree: its levels, leaves first. -/
structure MerkleTree (H : Type u) where
  levels : List (List H)
  deriving DecidableEq

/-- The level above. The last node of an odd level is duplicated. -/
def nextLevel : List H → List H
  | [] => []
  | [a] => [pair a a]
  | a :: b :: rest => pair a b :: nextLevel rest

/-- The levels above, up to one with a single node; the fuel bounds their number. -/
def levelsAbove : Nat → List H → List (List H)
  | 0, _ => []
  | fuel + 1, l =>
    if (nextLevel pair l).length = 1 then [nextLevel pair l]
    else nextLevel pair l :: levelsAbove fuel (nextLevel pair l)

/-- The index of the sibling in a level. -/
def siblingIndex (length i : Nat) : Nat :=
  if i % 2 = 1 then i - 1 else if length ≤ i + 1 then i else i + 1

/-- The siblings of a node and of those above it. -/
def path : List (List H) → Nat → Option (List (ProofDirection × H))
  | l :: l' :: above, i => do
    let sibling ← l[siblingIndex l.length i]?
    let rest ← path (l' :: above) (i / 2)
    return (if i % 2 = 1 then .left else .right, sibling) :: rest
  | _, _ => some []

namespace MerkleTree

/-- Build a tree from leaf hashes. -/
def fromLeaves (empty : H) (leaves : List H) : MerkleTree H :=
  if leaves = [] then ⟨[[], [empty]]⟩ else ⟨leaves :: levelsAbove pair leaves.length leaves⟩

/-- The root. -/
def root (empty : H) (t : MerkleTree H) : H :=
  ((t.levels.getLast?).bind List.head?).getD empty

/-- The leaves. -/
def leaves (t : MerkleTree H) : List H := t.levels.headD []

/-- Generate a proof for the leaf at an index. -/
def prove (t : MerkleTree H) (i : Nat) : Option (MerkleProof H) := do
  let leafHash ← t.leaves[i]?
  return ⟨leafHash, ← path t.levels i, i⟩

end MerkleTree

/-! ### Climbing -/

variable {pair}

variable (pair) in
theorem length_nextLevel : ∀ l : List H, (nextLevel pair l).length = (l.length + 1) / 2
  | [] => by simp [nextLevel]
  | [_] => by simp [nextLevel]
  | a :: b :: rest => by
    rw [nextLevel, List.length_cons, length_nextLevel rest, List.length_cons, List.length_cons]
    omega

variable (pair) in
/-- A node and its sibling make the node above. -/
theorem get_nextLevel : ∀ (l : List H) (i : Nat) (x : H), l[i]? = some x →
    ∃ y, l[siblingIndex l.length i]? = some y ∧
      (nextLevel pair l)[i / 2]? =
        some (climbStep pair x (if i % 2 = 1 then .left else .right, y))
  | [], i, x, h => by simp at h
  | [a], 0, x, h => by
    cases h
    exact ⟨a, rfl, rfl⟩
  | [a], i + 1, x, h => by simp at h
  | a :: b :: rest, 0, x, h => by
    cases h
    refine ⟨b, ?_, rfl⟩
    unfold siblingIndex
    simp
  | a :: b :: rest, 1, x, h => by
    cases h
    exact ⟨a, rfl, rfl⟩
  | a :: b :: rest, i + 2, x, h => by
    obtain ⟨y, hy, hnext⟩ := get_nextLevel rest i x h
    have hsibling : siblingIndex (a :: b :: rest).length (i + 2) =
        siblingIndex rest.length i + 2 := by
      unfold siblingIndex
      simp only [List.length_cons]
      split_ifs <;> omega
    have hhalf : (i + 2) / 2 = i / 2 + 1 := by omega
    have hparity : (i + 2) % 2 = i % 2 := by omega
    refine ⟨y, ?_, ?_⟩
    · rw [hsibling]
      exact hy
    · rw [hhalf, hparity]
      exact hnext

variable (pair) in
/-- **Climb.** From a node of a level, the siblings lead to the only node of the last one. -/
theorem path_levelsAbove (fuel : Nat) : ∀ (l : List H) (i : Nat) (x : H),
    l.length ≤ fuel → l[i]? = some x →
    ∃ steps, path (l :: levelsAbove pair fuel l) i = some steps ∧
      (l :: levelsAbove pair fuel l).getLast? = some [steps.foldl (climbStep pair) x] := by
  induction fuel with
  | zero =>
    intro l i x hlen hx
    rw [List.length_eq_zero_iff.mp (Nat.le_zero.mp hlen)] at hx
    cases hx
  | succ fuel ih =>
    intro l i x hlen hx
    obtain ⟨y, hy, hnext⟩ := get_nextLevel pair l i x hx
    have hlength := length_nextLevel pair l
    unfold levelsAbove
    split
    · rename_i hone
      obtain ⟨z, hz⟩ := List.length_eq_one_iff.mp hone
      rw [hz] at hnext ⊢
      obtain ⟨hhalf, hroot⟩ := List.getElem?_eq_some_iff.mp hnext
      have hzero : i / 2 = 0 := Nat.lt_one_iff.mp hhalf
      refine ⟨[(if i % 2 = 1 then .left else .right, y)], ?_, ?_⟩
      · simp [path, hy]
      · simp only [hzero, List.getElem_cons_zero] at hroot
        simp [hroot]
    · rename_i hmany
      have hpos : 0 < l.length :=
        Nat.lt_of_le_of_lt (Nat.zero_le i) (List.getElem?_eq_some_iff.mp hx).1
      obtain ⟨steps, hpath, hlast⟩ := ih (nextLevel pair l) (i / 2) _ (by omega) hnext
      refine ⟨(if i % 2 = 1 then .left else .right, y) :: steps, ?_, ?_⟩
      · rw [path, hy, hpath]
        rfl
      · rw [List.getLast?_cons_cons, hlast]
        rfl

namespace MerkleTree

variable {empty : H} {leafHashes : List H}

theorem leaves_fromLeaves : (fromLeaves pair empty leafHashes).leaves = leafHashes := by
  unfold fromLeaves
  split
  · rename_i h
    rw [h]
    rfl
  · rfl

/-- **Proofs.** The proof of a leaf starts at it and climbs to the root. -/
theorem prove_fromLeaves {i : Nat} {p : MerkleProof H}
    (h : (fromLeaves pair empty leafHashes).prove i = some p) :
    leafHashes[i]? = some p.leafHash ∧
      p.computeRoot pair = (fromLeaves pair empty leafHashes).root empty := by
  obtain ⟨x, hx, h⟩ := Option.bind_eq_some_iff.mp h
  rw [leaves_fromLeaves] at hx
  have hne : leafHashes ≠ [] := by
    rintro rfl
    cases hx
  obtain ⟨steps, hpath, hlast⟩ :=
    path_levelsAbove pair leafHashes.length leafHashes i x (Nat.le_refl _) hx
  unfold fromLeaves at h ⊢
  rw [if_neg hne] at h ⊢
  obtain ⟨steps', hsteps, h⟩ := Option.bind_eq_some_iff.mp h
  obtain rfl := Option.some.inj (hpath.symm.trans hsteps)
  obtain rfl := Option.some.inj h
  refine ⟨hx, ?_⟩
  unfold root
  rw [hlast]
  rfl

/-- Every leaf has a proof. -/
theorem prove_isSome {i : Nat} (h : i < leafHashes.length) :
    ((fromLeaves pair empty leafHashes).prove i).isSome := by
  obtain ⟨steps, hpath, -⟩ := path_levelsAbove pair leafHashes.length leafHashes i _
    (Nat.le_refl _) (List.getElem?_eq_getElem h)
  have hne : leafHashes ≠ [] := by
    rintro rfl
    cases h
  unfold prove
  rw [leaves_fromLeaves, List.getElem?_eq_getElem h]
  unfold fromLeaves
  rw [if_neg hne, Option.bind_eq_bind, Option.bind_some, hpath]
  rfl

end MerkleTree

end Merkle
