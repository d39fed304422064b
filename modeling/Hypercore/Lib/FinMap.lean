import Mathlib.Algebra.BigOperators.Group.List.Basic
import Mathlib.Algebra.Order.BigOperators.Group.List
import Mathlib.Data.List.Induction
import Mathlib.Data.List.Nodup
import Mathlib.Tactic.Common
import Mathlib.Tactic.Abel
import Std.Data.ExtTreeMap
/-!
# Hypercore.Lib.FinMap

Finite maps, as `Std.ExtTreeMap` over the key type's own order.

A program's hash maps and tree maps are both read through this type: it is
extensional (`Std.ExtTreeMap.ext_getElem?`), and its `toList` is sorted by key,
which is how a tree map iterates. Code that iterates over a *hash* map takes
the visiting order as an argument instead (`HashOrder`).

The library part is what the standard one lacks: `toList` as the unique sorted
list of the map's pairs, and the sum of a weight over all entries (`total`) with
the rule for each update.
-/

/-! ### Pairs as keys -/

/-- A key of two components, ordered by the first and then the second. -/
structure PairKey (κ μ : Type) where
  fst : κ
  snd : μ
  deriving DecidableEq, Repr

namespace PairKey

open Std

variable {κ μ : Type} [Ord κ] [Ord μ]

instance : Ord (PairKey κ μ) where
  compare a b := (compare a.fst b.fst).then (compare a.snd b.snd)

theorem compare_def (a b : PairKey κ μ) :
    compare a b = (compare a.fst b.fst).then (compare a.snd b.snd) := rfl

instance [TransOrd κ] [TransOrd μ] : TransOrd (PairKey κ μ) := by
  show TransCmp (compareLex (compareOn PairKey.fst) (compareOn PairKey.snd))
  infer_instance

instance [LawfulEqOrd κ] [LawfulEqOrd μ] [TransOrd κ] [TransOrd μ] :
    LawfulEqOrd (PairKey κ μ) where
  eq_of_compare {a b} h := by
    obtain ⟨x, y⟩ := a
    obtain ⟨x', y'⟩ := b
    simp only [compare_def, Ordering.then_eq_eq, Std.compare_eq_iff_eq] at h
    obtain ⟨rfl, rfl⟩ := h
    rfl

end PairKey

/-- A finite map from `κ` to `ν`. -/
abbrev FinMap (κ : Type) (ν : Type) [Ord κ] := Std.ExtTreeMap κ ν compare

namespace FinMap

open Std

variable {κ ν μ : Type} [Ord κ] [TransOrd κ] [LawfulEqOrd κ]

section Lookup

variable [DecidableEq κ] (m : FinMap κ ν) (k a : κ) (v : ν)

/-- Lookup after `insert`, stated with equality of keys. -/
theorem get_insert : (m.insert k v)[a]? = if k = a then some v else m[a]? := by
  simp [ExtTreeMap.getElem?_insert]

/-- Lookup after `erase`. -/
theorem get_erase : (m.erase k)[a]? = if k = a then none else m[a]? := by
  simp [ExtTreeMap.getElem?_erase]

omit [LawfulEqOrd κ] [DecidableEq κ] in
@[simp] theorem get_empty : (∅ : FinMap κ ν)[a]? = none := ExtTreeMap.getElem?_empty

omit [DecidableEq κ] in
@[simp] theorem get_insert_self : (m.insert k v)[k]? = some v := by
  simp

variable {k a} in
omit [DecidableEq κ] in
theorem get_insert_ne (h : k ≠ a) : (m.insert k v)[a]? = m[a]? := by
  simp [ExtTreeMap.getElem?_insert, h]

omit [DecidableEq κ] in
@[simp] theorem get_erase_self : (m.erase k)[k]? = none := by
  simp

variable {k a} in
omit [DecidableEq κ] in
theorem get_erase_ne (h : k ≠ a) : (m.erase k)[a]? = m[a]? := by
  simp [ExtTreeMap.getElem?_erase, h]

/-- Rewriting a key that is there leaves the domain. -/
theorem isSome_insert {m : FinMap κ ν} {k : κ} {w : ν} (h : m[k]? = some w) (a : κ) (v : ν) :
    ((m.insert k v)[a]?).isSome = (m[a]?).isSome := by
  rw [get_insert]
  split
  · rename_i hk
    rw [← hk, h]
    rfl
  · rfl

/-- Mapping the values commutes with writing. -/
theorem map_insert (f : ν → μ) :
    (m.insert k v).map (fun _ v => f v) = (m.map fun _ v => f v).insert k (f v) := by
  refine ExtTreeMap.ext_getElem? fun a => ?_
  rw [ExtTreeMap.getElem?_map, get_insert, get_insert, ExtTreeMap.getElem?_map]
  split <;> rfl

/-- It commutes with erasing. -/
theorem map_erase (f : ν → μ) :
    (m.erase k).map (fun _ v => f v) = (m.map fun _ v => f v).erase k := by
  refine ExtTreeMap.ext_getElem? fun a => ?_
  rw [ExtTreeMap.getElem?_map, get_erase, get_erase, ExtTreeMap.getElem?_map]
  split <;> rfl

/-- Lookup after erasing the keys of a list. -/
theorem get_foldl_erase {ι : Type} (g : ι → κ) (is : List ι) :
    (is.foldl (fun m i => m.erase (g i)) m)[a]? = if a ∈ is.map g then none else m[a]? := by
  induction is generalizing m with
  | nil => simp
  | cons i is ih =>
    rw [List.foldl_cons, ih, get_erase, List.map_cons]
    by_cases h : g i = a
    · simp [h]
    · simp [h, Ne.symm h]

end Lookup

/-! ### The sorted list of entries -/

theorem mem_toList {m : FinMap κ ν} {p : κ × ν} : p ∈ m.toList ↔ m[p.1]? = some p.2 := by
  obtain ⟨k, v⟩ := p
  exact ExtTreeMap.mem_toList_iff_getElem?_eq_some

theorem nodup_toList (m : FinMap κ ν) : m.toList.Nodup := by
  refine (m.distinct_keys_toList).imp ?_
  rintro a b h rfl
  exact h compare_self

theorem nodup_keys (m : FinMap κ ν) : (m.toList.map Prod.fst).Nodup := by
  rw [List.Nodup, List.pairwise_map]
  refine (m.distinct_keys_toList).imp ?_
  intro a b h hk
  exact h (by rw [hk]; exact compare_self)

variable {g : ν → κ} {l : List (κ × ν)}

/-- Values that name their keys. -/
theorem mem_values {m : FinMap κ ν} (h : ∀ k v, m[k]? = some v → g v = k) {v : ν} :
    v ∈ m.toList.map (·.2) ↔ m[g v]? = some v := by
  rw [List.mem_map]
  constructor
  · rintro ⟨⟨k, w⟩, hp, rfl⟩
    have hget := mem_toList.mp hp
    rw [h _ _ hget]
    exact hget
  · intro hget
    exact ⟨(g v, v), mem_toList.mpr hget, rfl⟩

/-- When each value tells its key, no value is listed twice. -/
theorem nodup_values {m : FinMap κ ν} (h : ∀ k v, m[k]? = some v → g v = k) :
    (m.toList.map Prod.snd).Nodup := by
  refine List.Nodup.of_map g ?_
  have hg : (m.toList.map Prod.snd).map g = m.toList.map Prod.fst := by
    rw [List.map_map]
    exact List.map_congr_left fun p hp => h p.1 p.2 (mem_toList.mp hp)
  rw [hg]
  exact nodup_keys m

/-- Strictly smaller keys. -/
def KeyLt (p q : κ × ν) : Prop := compare p.1 q.1 = .lt

omit [LawfulEqOrd κ] in
theorem pairwise_toList (m : FinMap κ ν) : m.toList.Pairwise KeyLt :=
  m.ordered_keys_toList

omit [LawfulEqOrd κ] in
theorem KeyLt.asymm {p q : κ × ν} (h : KeyLt p q) (h' : KeyLt q p) : False := by
  unfold KeyLt at h h'
  have hswap : compare q.1 p.1 = (compare p.1 q.1).swap := OrientedCmp.eq_swap
  rw [hswap, h] at h'
  exact absurd h' (by decide)

omit [LawfulEqOrd κ] in
theorem KeyLt.irrefl {p : κ × ν} (h : KeyLt p p) : False := h.asymm h

/-- **`toList` is the only sorted list with the map's pairs.** -/
theorem toList_eq {m : FinMap κ ν} (hsorted : l.Pairwise KeyLt)
    (hmem : ∀ k v, (k, v) ∈ l ↔ m[k]? = some v) : m.toList = l := by
  have hnd : l.Nodup := hsorted.imp fun {a b} h => by
    rintro rfl
    exact h.irrefl
  have hanti : ∀ a b : κ × ν, a ∈ m.toList → b ∈ l → KeyLt a b → KeyLt b a → a = b :=
    fun a b _ _ hab hba => (hab.asymm hba).elim
  refine List.Perm.eq_of_pairwise hanti (pairwise_toList m) hsorted ?_
  rw [List.perm_ext_iff_of_nodup (nodup_toList m) hnd]
  rintro ⟨k, v⟩
  rw [mem_toList, hmem]

/-- Erasing the least key drops the head. -/
theorem toList_erase_head {m : FinMap κ ν} {k : κ} {v : ν} (h : m.toList = (k, v) :: l) :
    (m.erase k).toList = l := by
  have hs : ((k, v) :: l).Pairwise KeyLt := h ▸ pairwise_toList m
  have hk : ∀ p ∈ l, p.1 ≠ k := by
    rintro ⟨a, b⟩ hp rfl
    exact (List.rel_of_pairwise_cons hs hp : KeyLt _ _).irrefl (p := (a, b)) |>.elim
  refine toList_eq hs.of_cons fun a w => ?_
  by_cases ha : k = a
  · subst ha
    simp only [get_erase_self]
    constructor
    · intro hp
      exact absurd rfl (hk _ hp)
    · intro hp
      exact absurd hp (by simp)
  · rw [get_erase_ne m ha, ← mem_toList (p := (a, w)), h, List.mem_cons]
    constructor
    · exact .inr
    · rintro (hp | hp)
      · exact absurd (Prod.mk.inj hp).1.symm ha
      · exact hp

/-- Rewriting the value of a key rewrites its pair in place. -/
theorem toList_insert_of_mem [DecidableEq κ] {m : FinMap κ ν} {k : κ} {v w : ν}
    (h : m[k]? = some v) :
    (m.insert k w).toList = m.toList.map fun p => if p.1 = k then (k, w) else p := by
  have hkey : ∀ p : κ × ν, (if p.1 = k then (k, w) else p).1 = p.1 := by
    intro p
    split
    · rename_i hp
      exact hp.symm
    · rfl
  refine toList_eq ?_ fun a b => ?_
  · rw [List.pairwise_map]
    refine (pairwise_toList m).imp fun {p q} hlt => ?_
    unfold KeyLt
    rw [hkey, hkey]
    exact hlt
  · rw [List.mem_map, get_insert]
    constructor
    · rintro ⟨p, hp, he⟩
      split at he
      · obtain ⟨rfl, rfl⟩ := Prod.mk.inj he
        rw [if_pos rfl]
      · rename_i hne
        subst he
        rw [if_neg (Ne.symm hne)]
        exact mem_toList.mp hp
    · intro hm
      split at hm
      · rename_i hk
        refine ⟨(k, v), mem_toList.mpr h, ?_⟩
        rw [if_pos rfl, ← hk, Option.some.inj hm]
      · rename_i hk
        exact ⟨(a, b), mem_toList.mpr hm, if_neg (Ne.symm hk)⟩

/-- The pairs of a map, with the one at `k` in front when there is one. -/
theorem toList_perm_erase (m : FinMap κ ν) (k : κ) :
    m.toList.Perm ((m[k]?.map fun v => (k, v)).toList ++ (m.erase k).toList) := by
  classical
  have hnd : ((m[k]?.map fun v => (k, v)).toList ++ (m.erase k).toList).Nodup := by
    cases hm : m[k]? with
    | none => simpa using nodup_toList _
    | some v =>
      simp only [Option.map_some, Option.toList_some, List.singleton_append, List.nodup_cons]
      refine ⟨?_, nodup_toList _⟩
      rw [mem_toList]
      simp
  rw [List.perm_ext_iff_of_nodup (nodup_toList m) hnd]
  rintro ⟨a, b⟩
  rw [List.mem_append, mem_toList, mem_toList, get_erase]
  by_cases ha : k = a
  · subst ha
    cases hm : m[k]? <;> simp [eq_comm]
  · cases hm : m[k]? <;> simp [ha, Ne.symm ha]

/-- Two maps whose entries give the same lists, missing entries giving none, give the same
list when they are visited in order. -/
theorem flatMap_toList_congr {β : Type} {m m' : FinMap κ ν} {f : κ → ν → List β}
    (h : ∀ k : κ, ((m[k]?).map (f k)).getD [] = ((m'[k]?).map (f k)).getD []) :
    m.toList.flatMap (fun p => f p.1 p.2) = m'.toList.flatMap fun p => f p.1 p.2 := by
  -- the entries that give something, in order
  let given (m : FinMap κ ν) : List (κ × List β) :=
    (m.toList.map fun p => (p.1, f p.1 p.2)).filter (·.2 ≠ [])
  have hgiven : ∀ m : FinMap κ ν, m.toList.flatMap (fun p => f p.1 p.2) =
      (given m).flatMap (·.2) := by
    intro m
    show m.toList.flatMap (fun p => f p.1 p.2) =
      ((m.toList.map fun p => (p.1, f p.1 p.2)).filter (·.2 ≠ [])).flatMap (·.2)
    induction m.toList with
    | nil => rfl
    | cons p l ih =>
      rw [List.flatMap_cons, ih, List.map_cons]
      by_cases hp : f p.1 p.2 = []
      · rw [List.filter_cons_of_neg (by simpa using hp), hp, List.nil_append]
      · rw [List.filter_cons_of_pos (by simpa using hp), List.flatMap_cons]
  have hsorted : ∀ m : FinMap κ ν, (given m).Pairwise KeyLt := fun m =>
    List.Pairwise.filter _ ((List.pairwise_map.mpr (pairwise_toList m)))
  have hmem : ∀ (m : FinMap κ ν) (k : κ) (l : List β),
      (k, l) ∈ given m ↔ l ≠ [] ∧ ((m[k]?).map (f k)).getD [] = l := by
    intro m k l
    show (k, l) ∈ (m.toList.map fun p => (p.1, f p.1 p.2)).filter (·.2 ≠ []) ↔ _
    rw [List.mem_filter, List.mem_map, decide_eq_true_eq, and_comm]
    refine and_congr_right fun hl => ?_
    constructor
    · rintro ⟨p, hp, he⟩
      obtain ⟨rfl, rfl⟩ := Prod.mk.inj he
      rw [mem_toList.mp hp]
      rfl
    · intro he
      cases hm : m[k]? with
      | none => exact absurd (he.symm.trans (by rw [hm]; rfl)) hl
      | some v =>
        rw [hm] at he
        exact ⟨(k, v), mem_toList.mpr hm, by rw [← he]; rfl⟩
  have hnodup : ∀ m : FinMap κ ν, (given m).Nodup := fun m => (hsorted m).imp fun {a b} hlt => by
    rintro rfl
    exact hlt.irrefl
  have heq : given m = given m' := by
    refine List.Perm.eq_of_pairwise (fun a b _ _ hab hba => (hab.asymm hba).elim) (hsorted m)
      (hsorted m') ?_
    rw [List.perm_ext_iff_of_nodup (hnodup m) (hnodup m')]
    rintro ⟨k, l⟩
    rw [hmem, hmem, h k]
  rw [hgiven, hgiven, heq]

/-! ### Sums over a map -/

section Total

variable {M : Type} [AddCommGroup M]

/-- The sum of a weight over all entries. -/
def total (f : κ → ν → M) (m : FinMap κ ν) : M := (m.toList.map fun p => f p.1 p.2).sum

/-- The weight at `k`, zero when there is no entry. -/
def weight (f : κ → ν → M) (m : FinMap κ ν) (k : κ) : M := (m[k]?.map (f k)).getD 0

omit [LawfulEqOrd κ] in
@[simp] theorem total_empty (f : κ → ν → M) : total f (∅ : FinMap κ ν) = 0 := by
  have h : (∅ : FinMap κ ν).toList = [] := by
    simp [ExtTreeMap.toList_eq_nil_iff]
  simp [total, h]

theorem total_eq_erase (f : κ → ν → M) (m : FinMap κ ν) (k : κ) :
    total f m = weight f m k + total f (m.erase k) := by
  unfold total weight
  rw [((toList_perm_erase m k).map _).sum_eq]
  cases m[k]? <;> simp

theorem total_erase (f : κ → ν → M) (m : FinMap κ ν) (k : κ) :
    total f (m.erase k) = total f m - weight f m k := by
  rw [total_eq_erase f m k]
  abel

/-- **Update rule.** Writing `v` at `k` moves the total by the difference of the
weights. -/
theorem total_insert [DecidableEq κ] (f : κ → ν → M) (m : FinMap κ ν) (k : κ) (v : ν) :
    total f (m.insert k v) = total f m - weight f m k + f k v := by
  have herase : (m.insert k v).erase k = m.erase k := by
    refine ExtTreeMap.ext_getElem? fun a => ?_
    rw [get_erase, get_erase]
    by_cases h : k = a
    · simp [h]
    · rw [if_neg h, if_neg h, get_insert_ne m v h]
  rw [total_eq_erase f (m.insert k v) k, herase, total_erase]
  simp only [weight, get_insert_self, Option.map_some, Option.getD_some]
  abel

variable {f g : κ → ν → M}

theorem total_congr {m : FinMap κ ν} (h : ∀ k v, m[k]? = some v → f k v = g k v) :
    total f m = total g m := by
  unfold total
  congr 1
  refine List.map_congr_left fun p hp => h p.1 p.2 (mem_toList.mp hp)

/-- Two weights that differ at one key only. -/
theorem total_elsewhere {m : FinMap κ ν} {k : κ} (h : ∀ a v, k ≠ a → f a v = g a v) :
    total f m = total g m + (weight f m k - weight g m k) := by
  have hrest : total f (m.erase k) = total g (m.erase k) := by
    refine total_congr fun a v ha => h a v fun hka => ?_
    rw [hka, get_erase_self] at ha
    cases ha
  rw [total_eq_erase f m k, total_eq_erase g m k, hrest]
  abel

omit [LawfulEqOrd κ] in
theorem total_add (f g : κ → ν → M) (m : FinMap κ ν) :
    total (fun k v => f k v + g k v) m = total f m + total g m := by
  unfold total
  exact List.sum_map_add

theorem total_eq_zero {m : FinMap κ ν} (h : ∀ k v, m[k]? = some v → f k v = 0) : total f m = 0 := by
  rw [total_congr h]
  simp [total]

/-- Weights that are never negative sum up to more than each of them. -/
theorem weight_le_total {f : κ → ν → Int} {m : FinMap κ ν} {k : κ} (h : ∀ k v, 0 ≤ f k v) :
    weight f m k ≤ total f m := by
  have hrest : 0 ≤ total f (m.erase k) := by
    refine List.sum_nonneg fun x hx => ?_
    obtain ⟨p, -, rfl⟩ := List.mem_map.mp hx
    exact h p.1 p.2
  rw [total_eq_erase f m k]
  omega

end Total

/-! ### Tables rebuilt from their entries -/

/-- What a table has after a list of items was written to it, one after the other, when
items of one key carry the same value. -/
theorem get_foldl_put {σ ι κ ν : Type} [DecidableEq κ] {put : σ → ι → σ}
    (get : σ → κ → Option ν) {key : ι → κ} {val : ι → ν}
    (hput : ∀ s i k, get (put s i) k = if key i = k then some (val i) else get s k) {s : σ}
    (h0 : ∀ k, get s k = none) {is : List ι}
    (hval : ∀ i ∈ is, ∀ j ∈ is, key i = key j → val i = val j) (k : κ) (v : ν) :
    get (is.foldl put s) k = some v ↔ ∃ i ∈ is, key i = k ∧ val i = v := by
  induction is using List.reverseRecOn with
  | nil => simp [h0]
  | append_singleton is i ih =>
    have hprefix := ih fun a ha b hb =>
      hval a (List.mem_append_left _ ha) b (List.mem_append_left _ hb)
    have hi : i ∈ is ++ [i] := List.mem_append_right _ (.head _)
    rw [List.foldl_append, List.foldl_cons, List.foldl_nil, hput]
    constructor
    · intro h
      split at h
      · rename_i hk
        exact ⟨i, hi, hk, Option.some.inj h⟩
      · obtain ⟨j, hj, hkv⟩ := hprefix.mp h
        exact ⟨j, List.mem_append_left _ hj, hkv⟩
    · rintro ⟨j, hj, rfl, rfl⟩
      split
      · rename_i hk
        rw [hval i hi j hj hk]
      · rename_i hk
        rcases List.mem_append.mp hj with hj | hj
        · exact hprefix.mpr ⟨j, hj, rfl, rfl⟩
        · obtain rfl := List.mem_singleton.mp hj
          exact absurd rfl hk

/-- Insert the pairs of a list, one after the other. -/
def insertAll (m : FinMap κ ν) (l : List (κ × ν)) : FinMap κ ν :=
  l.foldl (fun m p => m.insert p.1 p.2) m

/-- Insert a value under two keys, the inner map made where there is none. -/
def insertIn [Ord μ] [TransOrd μ] {ξ : Type} (mm : FinMap κ (FinMap μ ξ)) (k : κ) (i : μ) (v : ξ) :
    FinMap κ (FinMap μ ξ) :=
  mm.insert k (((mm[k]?).getD ∅).insert i v)

/-- Insert the values of a list under their two keys, one after the other. -/
def insertAllIn [Ord μ] [TransOrd μ] {ξ : Type} (mm : FinMap κ (FinMap μ ξ))
    (l : List (κ × μ × ξ)) :
    FinMap κ (FinMap μ ξ) :=
  l.foldl (fun mm p => mm.insertIn p.1 p.2.1 p.2.2) mm

section Nested

variable {ξ : Type} [Ord μ] [TransOrd μ] [LawfulEqOrd μ] [DecidableEq κ] [DecidableEq μ]

theorem get_insertIn (mm : FinMap κ (FinMap μ ξ)) (k a : κ) (i b : μ) (v : ξ) :
    ((mm.insertIn k i v)[a]?).bind (·[b]?) =
      if (k, i) = (a, b) then some v else (mm[a]?).bind (·[b]?) := by
  unfold insertIn
  rw [get_insert]
  by_cases hka : k = a
  · subst hka
    rw [if_pos rfl, Option.bind_some, get_insert]
    by_cases hib : i = b
    · simp [hib]
    · cases mm[k]? <;> simp [hib]
  · simp [hka]

omit [DecidableEq μ] in
/-- A map of maps that was made by insertions has no empty inner map. -/
theorem insertAllIn_inhabited (l : List (κ × μ × ξ)) {k : κ} {m : FinMap μ ξ}
    (h : (insertAllIn (∅ : FinMap κ (FinMap μ ξ)) l)[k]? = some m) :
    ∃ (i : μ) (v : ξ), m[i]? = some v := by
  induction l using List.reverseRecOn generalizing m with
  | nil => simp [insertAllIn] at h
  | append_singleton l p ih =>
    unfold insertAllIn at h ih
    rw [List.foldl_append, List.foldl_cons, List.foldl_nil, insertIn, get_insert] at h
    split at h
    · obtain rfl := Option.some.inj h
      exact ⟨p.2.1, p.2.2, get_insert_self _ _ _⟩
    · exact ih h

end Nested

end FinMap

/-! ### Hash-map iteration -/

/-- The order in which one pass over hash maps visits their entries: any
permutation, possibly another one for every map. -/
structure HashOrder where
  visit : {α : Type} → List α → List α
  perm : ∀ {α : Type} (l : List α), (visit l).Perm l

namespace HashOrder

/-- Visiting in key order, one of the possible orders. -/
def sorted : HashOrder := ⟨fun l => l, fun l => .refl l⟩

/-- Visiting in reverse key order. -/
def reversed : HashOrder := ⟨List.reverse, List.reverse_perm⟩

/-- Two orders visit the same entries. -/
theorem perm_visit (o o' : HashOrder) {α : Type} (l : List α) :
    (o.visit l).Perm (o'.visit l) := (o.perm l).trans (o'.perm l).symm

@[simp] theorem mem_visit (o : HashOrder) {α : Type} {l : List α} {a : α} :
    a ∈ o.visit l ↔ a ∈ l := (o.perm l).mem_iff

section Rebuild

open FinMap

variable {κ μ ν : Type} [Ord κ] [Std.TransOrd κ] [Std.LawfulEqOrd κ] [DecidableEq κ]
  [Ord μ] [Std.TransOrd μ] [Std.LawfulEqOrd μ] [DecidableEq μ]

/-- **Rebuilding a map.** In whatever order the entries are visited, they make the map. -/
theorem insertAll_visit (ord : HashOrder) (m : FinMap κ ν) :
    insertAll ∅ (ord.visit m.toList) = m := by
  refine Std.ExtTreeMap.ext_getElem? fun k => Option.ext fun v => ?_
  have hval : ∀ p ∈ ord.visit m.toList, ∀ q ∈ ord.visit m.toList, p.1 = q.1 → p.2 = q.2 := by
    intro p hp q hq hpq
    rw [mem_visit, mem_toList] at hp hq
    rw [hpq] at hp
    exact Option.some.inj (hp.symm.trans hq)
  refine (get_foldl_put (fun (m : FinMap κ ν) k => m[k]?)
    (fun m p k => get_insert m p.1 k p.2) (fun k => get_empty k) hval k v).trans ?_
  constructor
  · rintro ⟨p, hp, rfl, rfl⟩
    exact mem_toList.mp ((mem_visit ord).mp hp)
  · intro h
    exact ⟨(k, v), (mem_visit ord).mpr (mem_toList.mpr h), rfl, rfl⟩

/-- The entries of a map of maps, both kinds of map visited in hash order. -/
def entries (ord : HashOrder) (mm : FinMap κ (FinMap μ ν)) : List (κ × μ × ν) :=
  (ord.visit mm.toList).flatMap fun p => (ord.visit p.2.toList).map fun q => (p.1, q.1, q.2)

omit [DecidableEq κ] [DecidableEq μ] in
theorem mem_entries (ord : HashOrder) {mm : FinMap κ (FinMap μ ν)} {x : κ × μ × ν} :
    x ∈ ord.entries mm ↔ (mm[x.1]?).bind (·[x.2.1]?) = some x.2.2 := by
  unfold entries
  rw [List.mem_flatMap, Option.bind_eq_some_iff]
  constructor
  · rintro ⟨p, hp, hx⟩
    obtain ⟨q, hq, rfl⟩ := List.mem_map.mp hx
    rw [mem_visit, mem_toList] at hp hq
    exact ⟨p.2, hp, hq⟩
  · rintro ⟨m, hm, hx⟩
    refine ⟨(x.1, m), (mem_visit ord).mpr (mem_toList.mpr hm), List.mem_map.mpr ⟨x.2, ?_, rfl⟩⟩
    exact (mem_visit ord).mpr (mem_toList.mpr hx)

omit [DecidableEq κ] [DecidableEq μ] in
theorem nodup_entries (ord : HashOrder) (mm : FinMap κ (FinMap μ ν)) :
    (ord.entries mm).Nodup := by
  unfold entries
  rw [List.nodup_flatMap]
  refine ⟨fun p _ => ?_, ?_⟩
  · refine List.Nodup.map (fun q q' h => ?_) ((ord.perm _).nodup_iff.mpr (nodup_toList _))
    exact (Prod.mk.inj h).2
  · refine List.Pairwise.imp (R := fun p q => p.1 ≠ q.1) (fun {p q} hne => ?_) ?_
    · intro x hp hq
      obtain ⟨_, -, rfl⟩ := List.mem_map.mp hp
      obtain ⟨_, -, h⟩ := List.mem_map.mp hq
      exact hne (Prod.mk.inj h).1.symm
    · have hkeys : ((ord.visit mm.toList).map Prod.fst).Nodup :=
        ((ord.perm _).map _).nodup_iff.mpr (nodup_keys mm)
      exact List.pairwise_map.mp hkeys

omit [DecidableEq κ] in
/-- A pass over a map in which only one key gives something. -/
theorem flatMap_visit_key (ord : HashOrder) {γ : Type} {m : FinMap κ ν} {f : κ → ν → List γ}
    {k : κ} (hf : ∀ (a : κ) (v : ν), m[a]? = some v → a ≠ k → f a v = []) :
    (ord.visit m.toList).flatMap (fun p => f p.1 p.2) = ((m[k]?).map (f k)).getD [] := by
  have hkeys : ((ord.visit m.toList).map Prod.fst).Nodup :=
    ((ord.perm _).map _).nodup_iff.mpr (nodup_keys m)
  have hother : ∀ p ∈ ord.visit m.toList, p.1 ≠ k → f p.1 p.2 = [] := fun p hp =>
    hf p.1 p.2 (mem_toList.mp ((mem_visit ord).mp hp))
  cases hm : m[k]? with
  | none =>
    refine List.flatMap_eq_nil_iff.mpr fun p hp => hother p hp ?_
    rintro rfl
    rw [mem_visit, mem_toList, hm] at hp
    cases hp
  | some v =>
    obtain ⟨l, l', hl⟩ := List.append_of_mem ((mem_visit ord).mpr (mem_toList (p := (k, v)).mpr hm))
    rw [hl] at hkeys hother ⊢
    rw [List.map_append, List.map_cons, List.nodup_append] at hkeys
    have hbefore : l.flatMap (fun p => f p.1 p.2) = [] := by
      refine List.flatMap_eq_nil_iff.mpr fun p hp => hother p (List.mem_append_left _ hp) ?_
      exact hkeys.2.2 _ (List.mem_map_of_mem hp) _ (.head _)
    have hafter : l'.flatMap (fun p => f p.1 p.2) = [] := by
      refine List.flatMap_eq_nil_iff.mpr fun p hp =>
        hother p (List.mem_append_right _ (.tail _ hp)) ?_
      intro hk
      have hmem : p.1 ∈ l'.map Prod.fst := List.mem_map_of_mem hp
      rw [hk] at hmem
      exact (List.nodup_cons.mp hkeys.2.1).1 hmem
    rw [List.flatMap_append, List.flatMap_cons, hbefore, hafter]
    simp

/-- Rebuilding a map of maps gives the same lookups. -/
theorem get_insertAllIn_entries (ord : HashOrder) (mm : FinMap κ (FinMap μ ν)) (k : κ) (i : μ) :
    ((insertAllIn ∅ (ord.entries mm))[k]?).bind (·[i]?) = (mm[k]?).bind (·[i]?) := by
  refine Option.ext fun v => ?_
  have hval : ∀ x ∈ ord.entries mm, ∀ y ∈ ord.entries mm, (x.1, x.2.1) = (y.1, y.2.1) →
      x.2.2 = y.2.2 := by
    intro x hx y hy hxy
    obtain ⟨h1, h2⟩ := Prod.mk.inj hxy
    rw [mem_entries] at hx hy
    rw [h1, h2] at hx
    exact Option.some.inj (hx.symm.trans hy)
  refine (get_foldl_put (fun (mm : FinMap κ (FinMap μ ν)) (x : κ × μ) =>
      (mm[x.1]?).bind (·[x.2]?)) (fun mm x k => get_insertIn mm x.1 k.1 x.2.1 k.2 x.2.2)
    (fun k => by simp) hval (k, i) v).trans ?_
  constructor
  · rintro ⟨x, hx, hk, rfl⟩
    obtain ⟨rfl, rfl⟩ := Prod.mk.inj hk
    exact (mem_entries ord).mp hx
  · intro h
    exact ⟨(k, i, v), (mem_entries ord).mpr h, rfl, rfl⟩

/-- **Rebuilding a map of maps.** It comes back as it was when no inner map is empty. -/
theorem insertAllIn_entries (ord : HashOrder) {mm : FinMap κ (FinMap μ ν)}
    (hopen : ∀ (k : κ) (m : FinMap μ ν), mm[k]? = some m → ∃ (i : μ) (v : ν), m[i]? = some v) :
    insertAllIn ∅ (ord.entries mm) = mm := by
  have hget := get_insertAllIn_entries ord mm
  refine Std.ExtTreeMap.ext_getElem? fun k => ?_
  cases hm : mm[k]? with
  | none =>
    rw [Option.eq_none_iff_forall_not_mem]
    intro m hr
    obtain ⟨i, v, hv⟩ := insertAllIn_inhabited _ hr
    have := hget k i
    rw [hm, Option.mem_def.mp hr] at this
    rw [Option.bind_some, hv] at this
    cases this
  | some m =>
    obtain ⟨i, v, hv⟩ := hopen k m hm
    have hi := hget k i
    rw [hm, Option.bind_some, hv] at hi
    obtain ⟨m', hm', -⟩ := Option.bind_eq_some_iff.mp hi
    rw [hm']
    refine congrArg some (Std.ExtTreeMap.ext_getElem? fun j => ?_)
    have hj := hget k j
    rw [hm, hm'] at hj
    exact hj

end Rebuild

end HashOrder
