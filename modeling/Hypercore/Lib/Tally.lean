import Hypercore.Lib.FinMap
/-!
# Hypercore.Lib.Tally

Weighted votes, counted by choice.

A ballot is a choice and a weight. What `tally` counts does not depend on the order of the
ballots (`tally_perm`). `top` is the choice with the largest weight, and of those that tie
the one with the last key; `top_ne_iff` says when it is not a given one.
-/

namespace Tally

open Std

/-- The element with the largest value, the last one of those that tie. -/
def maxByKey {α : Type} (f : α → Nat) : List α → Option α
  | [] => none
  | a :: l =>
    match maxByKey f l with
    | none => some a
    | some b => if f b < f a then some a else some b

section MaxByKey

variable {α : Type} {f : α → Nat} {l : List α} {a b : α}

theorem maxByKey_eq_none_iff : maxByKey f l = none ↔ l = [] := by
  cases l with
  | nil => simp [maxByKey]
  | cons a l =>
    refine iff_of_false ?_ (by simp)
    rw [maxByKey]
    split
    · simp
    · split <;> simp

theorem maxByKey_mem (h : maxByKey f l = some b) : b ∈ l := by
  induction l with
  | nil => cases h
  | cons a l ih =>
    rw [maxByKey] at h
    split at h
    · obtain rfl := Option.some.inj h
      exact .head _
    · rename_i c hc
      split at h
      · obtain rfl := Option.some.inj h
        exact .head _
      · obtain rfl := Option.some.inj h
        exact .tail _ (ih hc)

/-- Nothing is larger, and what ties stands before. -/
theorem le_maxByKey {R : α → α → Prop} (hl : l.Pairwise R) (h : maxByKey f l = some b)
    (ha : a ∈ l) : f a ≤ f b ∧ (f a = f b → a = b ∨ R a b) := by
  induction l generalizing b with
  | nil => cases ha
  | cons x l ih =>
    rw [List.pairwise_cons] at hl
    rw [maxByKey] at h
    split at h
    · rename_i hnone
      obtain rfl := Option.some.inj h
      rw [maxByKey_eq_none_iff.mp hnone, List.mem_singleton] at ha
      exact ⟨by rw [ha], fun _ => .inl ha⟩
    · rename_i c hc
      split at h
      · rename_i hlt
        obtain rfl := Option.some.inj h
        rcases List.mem_cons.mp ha with rfl | ha
        · exact ⟨Nat.le_refl _, fun _ => .inl rfl⟩
        · have hle := (ih hl.2 hc ha).1
          exact ⟨by omega, fun he => by omega⟩
      · rename_i hle
        obtain rfl := Option.some.inj h
        rcases List.mem_cons.mp ha with rfl | ha
        · exact ⟨by omega, fun _ => .inr (hl.1 _ (maxByKey_mem hc))⟩
        · exact ih hl.2 hc ha

end MaxByKey

variable {κ : Type} [Ord κ] [TransOrd κ] [LawfulEqOrd κ] [DecidableEq κ]

/-- One ballot more. -/
def count (votes : FinMap κ Nat) (ballot : κ × Nat) : FinMap κ Nat :=
  votes.insert ballot.1 ((votes[ballot.1]?).getD 0 + ballot.2)

/-- The weights of the ballots, added up choice by choice. -/
def tally (ballots : List (κ × Nat)) : FinMap κ Nat := ballots.foldl count ∅

/-- The weight of a choice. -/
def weightOf (ballots : List (κ × Nat)) (k : κ) : Nat :=
  ((ballots.filter (·.1 = k)).map (·.2)).sum

/-- The weight of all ballots. -/
def weight (ballots : List (κ × Nat)) : Nat := (ballots.map (·.2)).sum

section Count

variable {ballots ballots' : List (κ × Nat)} {k : κ}

omit [Ord κ] [TransOrd κ] [LawfulEqOrd κ] in
theorem weightOf_cons (b : κ × Nat) :
    weightOf (b :: ballots) k = (if b.1 = k then b.2 else 0) + weightOf ballots k := by
  unfold weightOf
  by_cases h : b.1 = k <;> simp [h]

theorem get_foldl_count (votes : FinMap κ Nat) : (ballots.foldl count votes)[k]? =
    if k ∈ ballots.map (·.1) then some ((votes[k]?).getD 0 + weightOf ballots k)
    else votes[k]? := by
  induction ballots generalizing votes with
  | nil => simp
  | cons b ballots ih =>
    rw [List.foldl_cons, ih, weightOf_cons, count, FinMap.get_insert]
    by_cases hk : b.1 = k
    · have hcons : k ∈ (b :: ballots).map (·.1) := List.mem_cons.mpr (.inl hk.symm)
      rw [if_pos hcons, if_pos hk, if_pos hk, Option.getD_some, hk, Nat.add_assoc]
      split
      · rfl
      · rename_i hnot
        -- no other ballot is for this choice
        have hzero : weightOf ballots k = 0 := by
          unfold weightOf
          rw [List.filter_eq_nil_iff.mpr]
          · rfl
          · intro b' hb' he
            exact hnot (List.mem_map.mpr ⟨b', hb', by simpa using he⟩)
        rw [hzero, Nat.add_zero]
    · have hcons : k ∈ (b :: ballots).map (·.1) ↔ k ∈ ballots.map (·.1) := by
        rw [List.map_cons, List.mem_cons]
        exact or_iff_right (Ne.symm hk)
      rw [if_neg hk, if_neg hk, Nat.zero_add]
      exact (if_congr hcons rfl rfl).symm

theorem get_tally :
    (tally ballots)[k]? = if k ∈ ballots.map (·.1) then some (weightOf ballots k) else none := by
  unfold tally
  rw [get_foldl_count, FinMap.get_empty]
  simp

omit [Ord κ] [TransOrd κ] [LawfulEqOrd κ] in
theorem weightOf_perm (h : ballots.Perm ballots') : weightOf ballots k = weightOf ballots' k :=
  ((h.filter _).map _).sum_eq

omit [Ord κ] [TransOrd κ] [LawfulEqOrd κ] [DecidableEq κ] in
theorem weight_perm (h : ballots.Perm ballots') : weight ballots = weight ballots' :=
  (h.map _).sum_eq

/-- **Order.** The ballots are counted the same in every order. -/
theorem tally_perm (h : ballots.Perm ballots') : tally ballots = tally ballots' := by
  refine ExtTreeMap.ext_getElem? fun k => ?_
  rw [get_tally, get_tally, weightOf_perm h]
  exact if_congr (h.map _).mem_iff rfl rfl

/-- At most one choice was voted for. -/
theorem size_tally_le_one_iff : (tally ballots).size ≤ 1 ↔
    ∀ b ∈ ballots, ∀ b' ∈ ballots, b.1 = b'.1 := by
  have hmem : ∀ {g : κ}, (∃ b ∈ ballots, b.1 = g) ↔ ∃ p ∈ (tally ballots).toList, p.1 = g := by
    intro g
    rw [← List.mem_map]
    constructor
    · intro hg
      exact ⟨(g, weightOf ballots g), FinMap.mem_toList.mpr (get_tally.trans (if_pos hg)), rfl⟩
    · rintro ⟨⟨g', w⟩, hp, rfl⟩
      by_contra hg
      have hnone := get_tally.trans (if_neg hg)
      rw [FinMap.mem_toList.mp hp] at hnone
      cases hnone
  have hnodup := FinMap.nodup_keys (tally ballots)
  rw [← ExtTreeMap.length_toList]
  constructor
  · intro hle b hb b' hb'
    obtain ⟨p, hp, hpb⟩ := hmem.mp ⟨b, hb, rfl⟩
    obtain ⟨q, hq, hqb⟩ := hmem.mp ⟨b', hb', rfl⟩
    obtain ⟨x, hx⟩ := List.length_eq_one_iff.mp (by
      have := List.length_pos_of_mem hp
      omega : (tally ballots).toList.length = 1)
    rw [hx, List.mem_singleton] at hp hq
    rw [← hpb, ← hqb, hp, hq]
  · intro hall
    by_contra hlt
    cases hl : (tally ballots).toList with
    | nil => simp [hl] at hlt
    | cons p l =>
      cases l with
      | nil => simp [hl] at hlt
      | cons q l =>
        obtain ⟨b, hb, hpb⟩ := hmem.mpr ⟨p, by rw [hl]; exact .head _, rfl⟩
        obtain ⟨b', hb', hqb⟩ := hmem.mpr ⟨q, by rw [hl]; exact .tail _ (.head _), rfl⟩
        rw [hl] at hnodup
        have hne : p.1 ≠ q.1 := by
          have := (List.nodup_cons.mp hnodup).1
          simp only [List.map_cons, List.mem_cons, not_or] at this
          exact this.1
        exact hne (hpb.symm.trans ((hall b hb b' hb').trans hqb))

end Count

/-! ### The choice with the largest weight -/

/-- The choice with the largest weight, the last one of those that tie. -/
def top (votes : FinMap κ Nat) : Option κ := (maxByKey (·.2) votes.toList).map (·.1)

/-- Another choice has more weight, or the same and a later key. -/
def Beaten (votes : FinMap κ Nat) (k : κ) : Prop :=
  ∃ (g : κ) (p : Nat), votes[g]? = some p ∧ g ≠ k ∧
    ∀ q ∈ votes[k]?, q < p ∨ (q = p ∧ compare k g = .lt)

omit [DecidableEq κ] in
/-- The top is another choice exactly when this one is beaten. -/
theorem top_ne_iff {votes : FinMap κ Nat} {k : κ} :
    (∃ g, top votes = some g ∧ g ≠ k) ↔ Beaten votes k := by
  unfold top
  constructor
  · rintro ⟨g, hg, hne⟩
    obtain ⟨⟨g', p⟩, hmax, rfl⟩ := Option.map_eq_some_iff.mp hg
    refine ⟨g', p, FinMap.mem_toList.mp (maxByKey_mem hmax), hne, fun q hq => ?_⟩
    obtain ⟨hle, htie⟩ := le_maxByKey (FinMap.pairwise_toList votes) hmax
      (FinMap.mem_toList.mpr (show votes[(k, q).1]? = some (k, q).2 from hq))
    rcases lt_or_eq_of_le hle with hlt | heq
    · exact .inl hlt
    · rcases htie heq with he | hlt
      · exact absurd (congrArg Prod.fst he).symm hne
      · exact .inr ⟨heq, hlt⟩
  · rintro ⟨g, p, hg, hne, hq⟩
    have hmem : (g, p) ∈ votes.toList := FinMap.mem_toList.mpr hg
    cases hmax : maxByKey (·.2) votes.toList with
    | none =>
      rw [maxByKey_eq_none_iff.mp hmax] at hmem
      cases hmem
    | some t =>
      refine ⟨t.1, rfl, ?_⟩
      rintro rfl
      obtain ⟨hle, htie⟩ := le_maxByKey (FinMap.pairwise_toList votes) hmax hmem
      rcases hq t.2 (FinMap.mem_toList.mp (maxByKey_mem hmax)) with hlt | ⟨heq, hlt⟩
      · exact absurd hle (Nat.not_le_of_gt hlt)
      · rcases htie heq.symm with he | hlt'
        · exact hne (congrArg Prod.fst he)
        · exact FinMap.KeyLt.asymm (p := (g, p)) (q := t) hlt' hlt

end Tally
