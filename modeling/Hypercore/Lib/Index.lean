import Mathlib.Logic.Basic
import Mathlib.Tactic.Common
/-!
# Hypercore.Lib.Index

Secondary indexes of a table.

A table gives a value to each of its ids, and an index gives an id to each key. Both are
read through their lookups, so any kind of map may stand behind them, and an update of a
map enters a rule as an equation on its lookup. `Indexes` says that the index finds
exactly what the table holds, which leaves no two entries of the table with one key.
-/

section Index

universe u v w

variable {ι : Type u} {ν : Type v} {κ : Type w}

/-- The index finds the entries of the table by their keys, and nothing else. -/
def Indexes (key : ν → κ) (table : ι → Option ν) (index : κ → Option ι) : Prop :=
  ∀ k i, index k = some i ↔ ∃ v, table i = some v ∧ key v = k

namespace Indexes

variable {key : ν → κ} {table table' : ι → Option ν} {index index' : κ → Option ι} {i j : ι}
  {v w : ν}

/-- An entry is found under its key. -/
theorem find (h : Indexes key table index) (hi : table i = some v) : index (key v) = some i :=
  (h (key v) i).mpr ⟨v, hi, rfl⟩

/-- Entries with one key are one entry. -/
theorem id_unique (h : Indexes key table index) (hi : table i = some v) (hj : table j = some w)
    (hkey : key v = key w) : i = j := by
  have hfound := h.find hi
  rw [hkey, h.find hj] at hfound
  exact (Option.some.inj hfound).symm

/-- No entry is found when the table is empty. -/
theorem of_empty (htable : ∀ i, table i = none) (hindex : ∀ k, index k = none) :
    Indexes key table index := by
  intro k i
  rw [hindex k]
  constructor
  · exact nofun
  · rintro ⟨v, hv, -⟩
    rw [htable i] at hv
    cases hv

/-- What is not found is not there. -/
theorem absent (h : Indexes key table index) {k : κ} (hk : index k = none) (hi : table i = some v) :
    key v ≠ k := by
  rintro rfl
  rw [h.find hi] at hk
  cases hk

/-- **Entry.** A new entry that is also written to the index keeps the two in step exactly
when no entry had its key. -/
theorem insert_iff [DecidableEq ι] [DecidableEq κ] (h : Indexes key table index)
    (hnew : table i = none) (htable : ∀ j, table' j = if i = j then some v else table j)
    (hindex : ∀ k, index' k = if key v = k then some i else index k) :
    Indexes key table' index' ↔ ∀ j w, table j = some w → key w ≠ key v := by
  constructor
  · intro h' j w hj hkey
    have hij : i ≠ j := by
      rintro rfl
      rw [hnew] at hj
      cases hj
    have hj' : table' j = some w := by rw [htable, if_neg hij, hj]
    have hi' : table' i = some v := by rw [htable, if_pos rfl]
    exact hij (h'.id_unique hi' hj' hkey.symm)
  · intro hfree k j
    rw [hindex]
    by_cases hk : key v = k
    · rw [if_pos hk]
      constructor
      · intro hj
        obtain rfl := Option.some.inj hj
        exact ⟨v, by rw [htable, if_pos rfl], hk⟩
      · rintro ⟨w, hw, hkw⟩
        rw [htable] at hw
        by_cases hij : i = j
        · rw [hij]
        · rw [if_neg hij] at hw
          exact absurd (hkw.trans hk.symm) (hfree j w hw)
    · rw [if_neg hk, h k j]
      refine exists_congr fun w => ?_
      rw [htable]
      by_cases hij : i = j
      · subst hij
        rw [if_pos rfl, hnew]
        constructor
        · rintro ⟨hw, -⟩
          cases hw
        · rintro ⟨hw, hkw⟩
          obtain rfl := Option.some.inj hw
          exact absurd hkw hk
      · rw [if_neg hij]

/-- **Removal.** An entry leaves the table and its key leaves the index. -/
theorem erase [DecidableEq ι] [DecidableEq κ] (h : Indexes key table index)
    (hi : table i = some v) (htable : ∀ j, table' j = if i = j then none else table j)
    (hindex : ∀ k, index' k = if key v = k then none else index k) :
    Indexes key table' index' := by
  intro k j
  rw [hindex]
  by_cases hk : key v = k
  · rw [if_pos hk]
    constructor
    · exact nofun
    · rintro ⟨w, hw, hkw⟩
      rw [htable] at hw
      by_cases hij : i = j
      · rw [if_pos hij] at hw
        cases hw
      · rw [if_neg hij] at hw
        exact absurd (h.id_unique hi hw (hk.trans hkw.symm)) hij
  · rw [if_neg hk, h k j]
    refine exists_congr fun w => ?_
    rw [htable]
    by_cases hij : i = j
    · subst hij
      rw [if_pos rfl, hi]
      constructor
      · rintro ⟨hw, hkw⟩
        obtain rfl := Option.some.inj hw
        exact absurd hkw hk
      · rintro ⟨hw, -⟩
        cases hw
    · rw [if_neg hij]

end Indexes

end Index
