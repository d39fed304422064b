import Mathlib.Algebra.Order.BigOperators.Group.Finset
import Mathlib.Data.Finset.Card
import Mathlib.Tactic.Common
import Mathlib.Tactic.Linarith
/-!
# Hypercore.Lib.Quorum

Byzantine quorums: sets of `2f + 1` out of `3f + 1` voters of which at most `f`
are faulty.

**Intersection.** Two quorums share a voter that is not faulty
(`exists_correct_mem_inter`). Hence what a quorum of votes certifies is unique as
soon as voters that are not faulty never vote for two values
(`certified_unique`).

**Weights.** Two sets of voters that hold two thirds of the power each share a third of it
(`TwoThirds.third_le_sum_inter`), and exactly a third only when the voters split into three groups
of equal power (`splitsInThree_iff`).
-/

namespace Quorum

variable {α β : Type*} [DecidableEq α] {V F A B : Finset α} {f : Nat}

/-- Two quorums share a voter that is not faulty. -/
theorem exists_correct_mem_inter (hV : V.card ≤ 3 * f + 1) (hF : F.card ≤ f) (hA : A ⊆ V)
    (hB : B ⊆ V) (hqA : 2 * f + 1 ≤ A.card) (hqB : 2 * f + 1 ≤ B.card) :
    ∃ a ∈ A, a ∈ B ∧ a ∉ F := by
  have hunion : (A ∪ B).card ≤ V.card := Finset.card_le_card (Finset.union_subset hA hB)
  have hsum := Finset.card_union_add_card_inter A B
  have hlt : F.card < (A ∩ B).card := by omega
  obtain ⟨a, ha, hnot⟩ := Finset.exists_mem_notMem_of_card_lt_card hlt
  obtain ⟨haA, haB⟩ := Finset.mem_inter.mp ha
  exact ⟨a, haA, haB, hnot⟩

/-- A value with a quorum of voters, of which the ones that are not faulty voted for it. -/
def Certified (V F : Finset α) (f : Nat) (voted : α → β → Prop) (b : β) : Prop :=
  ∃ A ⊆ V, 2 * f + 1 ≤ A.card ∧ ∀ a ∈ A, a ∉ F → voted a b

/-- **Agreement.** Two certified values are equal when no voter that is not faulty votes
for two. -/
theorem certified_unique {voted : α → β → Prop} {b b' : β} (hV : V.card ≤ 3 * f + 1)
    (hF : F.card ≤ f) (hone : ∀ a ∈ V, a ∉ F → ∀ b b', voted a b → voted a b' → b = b')
    (hb : Certified V F f voted b) (hb' : Certified V F f voted b') : b = b' := by
  obtain ⟨A, hA, hqA, hvA⟩ := hb
  obtain ⟨B, hB, hqB, hvB⟩ := hb'
  obtain ⟨a, haA, haB, hcorrect⟩ := exists_correct_mem_inter hV hF hA hB hqA hqB
  exact hone a (hA haA) hcorrect _ _ (hvA a haA hcorrect) (hvB a haB hcorrect)

/-! ### Weighted voters -/

section Weights

open Finset

variable {w : α → ℤ}

/-- Power is nowhere negative, and the two sets are voters that hold two thirds each. -/
structure TwoThirds (w : α → ℤ) (V A B : Finset α) : Prop where
  nonneg : ∀ a ∈ V, 0 ≤ w a
  left : A ⊆ V
  right : B ⊆ V
  leftPower : 2 * ∑ a ∈ V, w a ≤ 3 * ∑ a ∈ A, w a
  rightPower : 2 * ∑ a ∈ V, w a ≤ 3 * ∑ a ∈ B, w a

/-- What two sets hold together is what they share and what one of them holds at least. -/
theorem TwoThirds.sum_union_le (h : TwoThirds w V A B) :
    ∑ a ∈ A ∪ B, w a ≤ ∑ a ∈ V, w a :=
  sum_le_sum_of_subset_of_nonneg (union_subset h.left h.right) fun a ha _ => h.nonneg a ha

/-- **Weighted intersection.** Two sets of two thirds share a third. -/
theorem TwoThirds.third_le_sum_inter (h : TwoThirds w V A B) :
    ∑ a ∈ V, w a ≤ 3 * ∑ a ∈ A ∩ B, w a := by
  have hunion := h.sum_union_le
  have hsum : ∑ a ∈ A ∪ B, w a + ∑ a ∈ A ∩ B, w a = ∑ a ∈ A, w a + ∑ a ∈ B, w a :=
    sum_union_inter
  linarith [h.leftPower, h.rightPower]

/-- Two disjoint sets of voters hold a third of the power each, and so do the others. -/
def SplitsInThree (w : α → ℤ) (V : Finset α) : Prop :=
  ∃ A ⊆ V, ∃ B ⊆ V, Disjoint A B ∧ 3 * ∑ a ∈ A, w a = ∑ a ∈ V, w a ∧
    3 * ∑ a ∈ B, w a = ∑ a ∈ V, w a

/-- **When no more than a third is shared.** Some two sets of two thirds share no more than a
third exactly when the voters split in three. -/
theorem splitsInThree_iff (hw : ∀ a ∈ V, 0 ≤ w a) : SplitsInThree w V ↔
    ∃ A B, TwoThirds w V A B ∧ 3 * ∑ a ∈ A ∩ B, w a ≤ ∑ a ∈ V, w a := by
  constructor
  · rintro ⟨A, hA, B, hB, hdisj, hpA, hpB⟩
    -- each set is the first third with one of the others
    have hrest := sum_sdiff (union_subset hA hB) (f := w)
    have hunion := sum_union hdisj (f := w)
    have hdisj' : Disjoint A (V \ (A ∪ B)) :=
      disjoint_sdiff.mono_left subset_union_left
    have hinter : (A ∪ B) ∩ (A ∪ V \ (A ∪ B)) = A := by
      ext a
      simp only [mem_inter, mem_union, mem_sdiff]
      tauto
    refine ⟨A ∪ B, A ∪ V \ (A ∪ B),
      ⟨hw, union_subset hA hB, union_subset hA sdiff_subset, ?_, ?_⟩, ?_⟩
    · linarith
    · rw [sum_union hdisj']
      linarith
    · rw [hinter]
      exact hpA.le
  · rintro ⟨A, B, h, hle⟩
    have hthird := h.third_le_sum_inter
    have hunion := h.sum_union_le
    have hsum : ∑ a ∈ A ∪ B, w a + ∑ a ∈ A ∩ B, w a = ∑ a ∈ A, w a + ∑ a ∈ B, w a :=
    sum_union_inter
    have hrest := sum_sdiff (inter_subset_left : A ∩ B ⊆ A) (f := w)
    refine ⟨A ∩ B, inter_subset_left.trans h.left, A \ (A ∩ B), sdiff_subset.trans h.left,
      disjoint_sdiff, ?_, ?_⟩
    · linarith
    · linarith [h.leftPower, h.rightPower]

end Weights

end Quorum
