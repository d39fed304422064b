import Hypercore.Lib.Merkle
import Mathlib.Data.Set.Function
/-!
# Hypercore.Lib.HashTree

What a Merkle root commits to.

A `HashTree` is how a root came about: the data at its leaves, and which nodes were combined.
`inputs` are all data that were hashed for it, so that a hash is asked to be without collisions
on these alone, and not on all data, which no hash with a fixed length is. Under that
hypothesis a digest determines its tree (`digest_inj`), and a path that climbs to it starts at
one of its leaves (`mem_leaves_of_climb`).
-/

namespace Merkle

universe u

/-- A tree of data. -/
inductive HashTree (β : Type u)
  | leaf (data : β)
  | node (left right : HashTree β)
  deriving DecidableEq

variable {H β : Type u} (hash : β → H) (join : H → H → β)

/-- The digest of two digests. -/
def hashJoin (a b : H) : H := hash (join a b)

namespace HashTree

/-- The digest of a tree. -/
def digest : HashTree β → H
  | leaf data => hash data
  | node l r => hash (join (digest l) (digest r))

/-- All data that are hashed for the digest. -/
def inputs : HashTree β → List β
  | leaf data => [data]
  | node l r => join (digest hash join l) (digest hash join r) :: (inputs l ++ inputs r)

/-- The data at the leaves. -/
def leaves : HashTree β → List β
  | leaf data => [data]
  | node l r => leaves l ++ leaves r

/-- No leaf has the data of an inner node. -/
def Apart (t : HashTree β) : Prop := ∀ data ∈ t.leaves, ∀ a b, data ≠ join a b

variable {hash join} {t t' l r : HashTree β} {S : Set β}

theorem Apart.left (h : (node l r).Apart join) : l.Apart join :=
  fun data hdata => h data (List.mem_append_left _ hdata)

theorem Apart.right (h : (node l r).Apart join) : r.Apart join :=
  fun data hdata => h data (List.mem_append_right _ hdata)

theorem inputs_left (h : ∀ x ∈ (node l r).inputs hash join, x ∈ S) :
    ∀ x ∈ l.inputs hash join, x ∈ S :=
  fun x hx => h x (List.mem_cons_of_mem _ (List.mem_append_left _ hx))

theorem inputs_right (h : ∀ x ∈ (node l r).inputs hash join, x ∈ S) :
    ∀ x ∈ r.inputs hash join, x ∈ S :=
  fun x hx => h x (List.mem_cons_of_mem _ (List.mem_append_right _ hx))

/-- **Binding.** Trees of one digest are equal, when nothing hashed for them collides. -/
theorem digest_inj (hinj : S.InjOn hash)
    (hjoin : ∀ a b c d, join a b = join c d → a = c ∧ b = d) :
    ∀ {t t' : HashTree β}, (∀ x ∈ t.inputs hash join, x ∈ S) →
      (∀ x ∈ t'.inputs hash join, x ∈ S) → t.Apart join → t'.Apart join →
      t.digest hash join = t'.digest hash join → t = t' := by
  intro t
  induction t with
  | leaf data =>
    intro t' hS hS' hapart _ heq
    cases t' with
    | leaf data' =>
      rw [hinj (hS data (.head _)) (hS' data' (.head _)) heq]
    | node l' r' =>
      exact absurd (hinj (hS data (.head _)) (hS' _ (.head _)) heq) (hapart data (.head _) _ _)
  | node l r ihl ihr =>
    intro t' hS hS' hapart hapart' heq
    cases t' with
    | leaf data' =>
      exact absurd (hinj (hS _ (.head _)) (hS' data' (.head _)) heq).symm
        (hapart' data' (.head _) _ _)
    | node l' r' =>
      obtain ⟨hl, hr⟩ := hjoin _ _ _ _ (hinj (hS _ (.head _)) (hS' _ (.head _)) heq)
      rw [ihl (inputs_left hS) (inputs_left hS') hapart.left hapart'.left hl,
        ihr (inputs_right hS) (inputs_right hS') hapart.right hapart'.right hr]

end HashTree

/-! ### Climbing to a digest -/

/-- What one step up hashes. -/
def climbInput (current : H) (sibling : ProofDirection × H) : β :=
  match sibling.1 with
  | .left => join sibling.2 current
  | .right => join current sibling.2

/-- All data that are hashed on the way up. -/
def climbInputs (current : H) : List (ProofDirection × H) → List β
  | [] => []
  | sibling :: above =>
    climbInput join current sibling ::
      climbInputs (climbStep (hashJoin hash join) current sibling) above

variable {hash join} {S : Set β}

theorem climbStep_hashJoin (current : H) (sibling : ProofDirection × H) :
    climbStep (hashJoin hash join) current sibling = hash (climbInput join current sibling) := by
  unfold climbStep climbInput
  cases sibling.1 <;> rfl

theorem climbInputs_append (sibling : ProofDirection × H) :
    ∀ (path : List (ProofDirection × H)) (current : H),
      climbInputs hash join current (path ++ [sibling]) = climbInputs hash join current path ++
        [climbInput join (path.foldl (climbStep (hashJoin hash join)) current) sibling]
  | [], _ => rfl
  | first :: path, current => by
    simp only [List.cons_append, climbInputs, List.foldl_cons]
    rw [climbInputs_append sibling path]

/-- **Soundness.** A path from hashed data to a digest starts at one of its leaves. -/
theorem mem_leaves_of_climb (hinj : S.InjOn hash)
    (hjoin : ∀ a b c d, join a b = join c d → a = c ∧ b = d) {data : β}
    (hdata : ∀ a b, data ≠ join a b) (hmem : data ∈ S) :
    ∀ {t : HashTree β} {path : List (ProofDirection × H)},
      (∀ x ∈ t.inputs hash join, x ∈ S) → t.Apart join →
      (∀ x ∈ climbInputs hash join (hash data) path, x ∈ S) →
      path.foldl (climbStep (hashJoin hash join)) (hash data) = t.digest hash join →
      data ∈ t.leaves := by
  intro t
  induction t with
  | leaf data' =>
    intro path hS hapart hpath heq
    rcases List.eq_nil_or_concat path with rfl | ⟨below, sibling, rfl⟩
    · exact List.mem_singleton.mpr (hinj hmem (hS data' (.head _)) heq)
    · -- The last step hashed a pair, and the leaf is none.
      rw [List.concat_eq_append] at hpath heq
      rw [climbInputs_append] at hpath
      rw [List.foldl_append, List.foldl_cons, List.foldl_nil, climbStep_hashJoin] at heq
      have hpair := hinj (hpath _ (List.mem_append_right _ (.head _))) (hS data' (.head _)) heq
      unfold climbInput at hpair
      cases hside : sibling.1 <;> rw [hside] at hpair <;>
        exact absurd hpair.symm (hapart data' (.head _) _ _)
  | node l r ihl ihr =>
    intro path hS hapart hpath heq
    rcases List.eq_nil_or_concat path with rfl | ⟨below, sibling, rfl⟩
    · exact absurd (hinj hmem (hS _ (.head _)) heq) (hdata _ _)
    · rw [List.concat_eq_append] at hpath heq
      rw [climbInputs_append] at hpath
      rw [List.foldl_append, List.foldl_cons, List.foldl_nil, climbStep_hashJoin] at heq
      have hpair := hinj (hpath _ (List.mem_append_right _ (.head _))) (hS _ (.head _)) heq
      have hbelow : ∀ x ∈ climbInputs hash join (hash data) below, x ∈ S :=
        fun x hx => hpath x (List.mem_append_left _ hx)
      unfold climbInput at hpair
      cases hside : sibling.1 with
      | left =>
        rw [hside] at hpair
        have hr := (hjoin _ _ _ _ hpair).2
        exact List.mem_append_right _ (ihr (HashTree.inputs_right hS) hapart.right hbelow hr)
      | right =>
        rw [hside] at hpair
        have hl := (hjoin _ _ _ _ hpair).1
        exact List.mem_append_left _ (ihl (HashTree.inputs_left hS) hapart.left hbelow hl)

/-! ### The tree of a list of leaves -/

section Root

variable {H' : Type u} {pair : H → H → H} {pair' : H' → H' → H'}

variable (pair) in
/-- **Induction over levels.** What every next level inherits holds of the root. -/
theorem root_induction {P : List H → Prop} (hnext : ∀ l, P l → P (nextLevel pair l)) (fuel : Nat) :
    ∀ l : List H, l ≠ [] → l.length ≤ fuel → P l →
      ∃ r, (l :: levelsAbove pair fuel l).getLast? = some [r] ∧ P [r] := by
  induction fuel with
  | zero =>
    intro l hne hlen
    exact absurd (List.length_eq_zero_iff.mp (Nat.le_zero.mp hlen)) hne
  | succ fuel ih =>
    intro l hne hlen hl
    have hpos := List.length_pos_iff.mpr hne
    have hlength := length_nextLevel pair l
    unfold levelsAbove
    split
    · rename_i hone
      obtain ⟨r, hr⟩ := List.length_eq_one_iff.mp hone
      have hP := hnext l hl
      rw [hr] at hP ⊢
      exact ⟨r, rfl, hP⟩
    · rename_i hmany
      have hne' : nextLevel pair l ≠ [] := by
        rw [← List.length_pos_iff]
        omega
      obtain ⟨r, hlast, hP⟩ := ih (nextLevel pair l) hne' (by omega) (hnext l hl)
      refine ⟨r, ?_, hP⟩
      rw [List.getLast?_cons_cons, hlast]

theorem nextLevel_map {f : H → H'} (hf : ∀ a b, f (pair a b) = pair' (f a) (f b)) :
    ∀ l : List H, nextLevel pair' (l.map f) = (nextLevel pair l).map f
  | [] => rfl
  | [a] => by simp [nextLevel, hf]
  | a :: b :: rest => by simp [nextLevel, hf, nextLevel_map hf rest]

theorem levelsAbove_map {f : H → H'} (hf : ∀ a b, f (pair a b) = pair' (f a) (f b)) (fuel : Nat) :
    ∀ l : List H,
      levelsAbove pair' fuel (l.map f) = (levelsAbove pair fuel l).map (List.map f) := by
  induction fuel with
  | zero => exact fun _ => rfl
  | succ fuel ih =>
    intro l
    unfold levelsAbove
    rw [nextLevel_map hf, List.length_map, ih]
    split <;> rfl

variable (pair pair') in
/-- The root of images is the image of the root. -/
theorem root_map {f : H → H'} (hf : ∀ a b, f (pair a b) = pair' (f a) (f b)) (empty : H)
    (l : List H) : (MerkleTree.fromLeaves pair' (f empty) (l.map f)).root (f empty) =
      f ((MerkleTree.fromLeaves pair empty l).root empty) := by
  unfold MerkleTree.fromLeaves MerkleTree.root
  rw [List.length_map, levelsAbove_map hf]
  cases l with
  | nil => rfl
  | cons a l =>
    rw [if_neg (by simp), if_neg (by simp), ← List.map_cons, List.getLast?_map]
    cases ((a :: l) :: levelsAbove pair (a :: l).length (a :: l)).getLast? with
    | none => rfl
    | some last => cases last <;> rfl

end Root

/-- The tree over a list of data; of no data it is a single leaf. -/
def HashTree.ofList (empty : β) (l : List β) : HashTree β :=
  (MerkleTree.fromLeaves .node (.leaf empty) (l.map .leaf)).root (.leaf empty)

/-- The root of a list of hashed leaves is the digest of its tree. -/
theorem HashTree.root_eq_digest (hash : β → H) (join : H → H → β) (empty : β) (l : List β) :
    (MerkleTree.fromLeaves (hashJoin hash join) (hash empty) (l.map hash)).root (hash empty) =
      (ofList empty l).digest hash join := by
  have h := root_map .node (hashJoin hash join) (f := digest hash join) (fun _ _ => rfl)
    (.leaf empty) (l.map .leaf)
  rw [List.map_map] at h
  exact h

/-- Pairing up a level keeps the data at the leaves. -/
theorem HashTree.mem_nextLevel (data : β) : ∀ l : List (HashTree β),
    (∃ t ∈ nextLevel .node l, data ∈ t.leaves) ↔ ∃ t ∈ l, data ∈ t.leaves
  | [] => Iff.rfl
  | [t] => by simp [nextLevel, leaves]
  | t :: t' :: rest => by
    have ih := mem_nextLevel data rest
    simp only [nextLevel, List.exists_mem_cons_iff, leaves, List.mem_append, ih, or_assoc]

/-- **Leaves.** Duplicated nodes add nothing to the data at the leaves. -/
theorem HashTree.mem_leaves_ofList {empty data : β} {l : List β} (hne : l ≠ []) :
    data ∈ (ofList empty l).leaves ↔ data ∈ l := by
  have hmap : l.map HashTree.leaf ≠ [] := by simpa using hne
  obtain ⟨r, hlast, hr⟩ := root_induction HashTree.node
    (P := fun level => (∃ t ∈ level, data ∈ t.leaves) ↔ data ∈ l)
    (fun level h => (mem_nextLevel data level).trans h) (l.map HashTree.leaf).length
    (l.map .leaf) hmap (Nat.le_refl _) (by simp [leaves])
  have hroot : ofList empty l = r := by
    unfold ofList MerkleTree.fromLeaves MerkleTree.root
    rw [if_neg hmap, hlast]
    rfl
  rw [hroot, ← hr]
  simp

end Merkle
