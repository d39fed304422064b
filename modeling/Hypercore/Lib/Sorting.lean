import Hypercore.Lib.FinMap
import Mathlib.Data.List.Flatten
import Mathlib.Data.List.Pairwise
import Mathlib.Data.List.Sort
import Mathlib.Tactic.Push
/-!
# Hypercore.Lib.Sorting

Collecting the entries of hash maps and sorting them.

The sort is stable, by a key that may tie. Elements whose keys differ leave only one order, so
that what was collected in any order is then the same list (`sortOn_eq`); where keys tie, the
order in which the elements were collected shows. What differs between two sorted arrangements
differs by a swap of tied neighbours in one of them (`eq_of_tied_swaps`).

For a map that is written entry by entry, this says exactly when its contents, collected in any
hash order and sorted, come in the order in which they were written (`collect_eq_iff`).
-/

universe u

namespace List

open Std

variable {α κ : Type u} [Ord κ]

/-- Stable sort by a key. -/
def sortOn (key : α → κ) (l : List α) : List α :=
  l.insertionSort fun a b => (compare (key a) (key b)).isLE

variable {key : α → κ} {l l' : List α}

theorem perm_sortOn (key : α → κ) (l : List α) : (l.sortOn key).Perm l := perm_insertionSort _ l

@[simp] theorem mem_sortOn {a : α} : a ∈ l.sortOn key ↔ a ∈ l := (perm_sortOn key l).mem_iff

section

variable [TransOrd κ]

theorem compare_swap (a b : α) : compare (key b) (key a) = (compare (key a) (key b)).swap :=
  OrientedCmp.eq_swap

theorem pairwise_sortOn (key : α → κ) (l : List α) :
    (l.sortOn key).Pairwise fun a b => (compare (key a) (key b)).isLE := by
  have htotal : Std.Total fun a b : α => (compare (key a) (key b)).isLE = true := by
    refine ⟨fun a b => ?_⟩
    rw [compare_swap a b]
    cases compare (key a) (key b) <;> simp
  have htrans : IsTrans α fun a b : α => (compare (key a) (key b)).isLE = true :=
    ⟨fun a b c hab hbc => TransCmp.isLE_trans hab hbc⟩
  exact pairwise_insertionSort _ l

/-- **Keys that differ.** There is one order only for what has a strictly sorted order. -/
theorem sortOn_eq (hperm : l.Perm l')
    (hsorted : l'.Pairwise fun a b => compare (key a) (key b) = .lt) : l.sortOn key = l' := by
  have hall : (l.sortOn key).Perm l' := (perm_sortOn key l).trans hperm
  have hdiffer : (l.sortOn key).Pairwise fun a b => compare (key a) (key b) ≠ .eq := by
    have hl' : l'.Pairwise fun a b => compare (key a) (key b) ≠ .eq := by
      refine hsorted.imp fun {a b} h => ?_
      rw [h]
      decide
    refine (hall.pairwise_iff fun {a b} h hba => h ?_).mpr hl'
    rw [compare_swap, hba]
    rfl
  have hstrict : (l.sortOn key).Pairwise fun a b => compare (key a) (key b) = .lt := by
    refine (hdiffer.and (pairwise_sortOn key l)).imp fun {a b} h => ?_
    revert h
    cases compare (key a) (key b) <;> simp
  refine Perm.eq_of_pairwise (fun a b _ _ hab hba => ?_) hstrict hsorted hall
  rw [compare_swap, hba] at hab
  cases hab

end

section Ties

variable {α β : Type u} {r : α → α → Prop} {u v : List α} {a b : α}

theorem Pairwise.swap_tied (h : (u ++ a :: b :: v).Pairwise r) (htie : r b a) :
    (u ++ b :: a :: v).Pairwise r := by
  simp only [pairwise_append, pairwise_cons, mem_cons] at h ⊢
  obtain ⟨hu, ⟨ha, hb, hv⟩, hacross⟩ := h
  refine ⟨hu, ⟨?_, fun x hx => ha x (.inr hx), hv⟩, fun x hx y hy => hacross x hx y ?_⟩
  · rintro x (rfl | hx)
    · exact htie
    · exact hb x hx
  · tauto

/-- **Ties.** What no swap of tied neighbours changes is the same for all sorted arrangements:
the element that comes first in one of them has only tied ones before it in another. -/
theorem eq_of_tied_swaps [Std.Refl r] {f : List α → β} {l l' : List α}
    (hswap : ∀ u a b v, (u ++ a :: b :: v).Perm l → (u ++ a :: b :: v).Pairwise r → r b a →
      f (u ++ a :: b :: v) = f (u ++ b :: a :: v))
    (hp : l'.Perm l) (hs : l.Pairwise r) (hs' : l'.Pairwise r) : f l = f l' := by
  induction l' generalizing f l with
  | nil => rw [hp.symm.eq_nil]
  | cons a l' ih =>
    obtain ⟨hfirst, hrest⟩ := pairwise_cons.mp hs'
    have hfront : ∀ u v, (u ++ a :: v).Perm l → (u ++ a :: v).Pairwise r →
        f (u ++ a :: v) = f (a :: (u ++ v)) := by
      intro u
      induction u using reverseRecOn with
      | nil => exact fun _ _ _ => rfl
      | append_singleton u x ihu =>
        intro v hperm hsorted
        simp only [append_assoc, singleton_append] at hperm hsorted ⊢
        have htie : r a x := by
          have hx : x ∈ a :: l' := hp.mem_iff.mpr (hperm.subset (by simp))
          rcases mem_cons.mp hx with rfl | hx
          · exact refl x
          · exact hfirst x hx
        rw [hswap u x a v hperm hsorted htie]
        exact ihu (x :: v) ((((Perm.swap x a v).symm).append_left u).symm.trans hperm)
          (hsorted.swap_tied htie)
    obtain ⟨u, v, rfl⟩ := append_of_mem (hp.subset mem_cons_self)
    have htail : l'.Perm (u ++ v) := (hp.trans perm_middle).cons_inv
    rw [hfront u v (.refl _) hs]
    refine ih (f := fun l => f (a :: l)) (fun w x y z hperm hsorted htie => ?_) htail
      (hs.sublist ((sublist_cons_self a v).append_left u)) hrest
    refine hswap (a :: w) x y z ((hperm.cons a).trans perm_middle.symm) ?_ htie
    exact pairwise_cons.mpr ⟨fun z hz => hfirst z (htail.mem_iff.mpr (hperm.subset hz)), hsorted⟩

end Ties
end List

namespace HashOrder

open FinMap

variable {κ ν : Type} [Ord κ] [Std.TransOrd κ] [Std.LawfulEqOrd κ]

/-- The keys of a map, collected in hash order and sorted. -/
def sortedKeys (ord : HashOrder) (m : FinMap κ ν) : List κ :=
  (ord.visit (m.toList.map (·.1))).sortOn id

omit [Std.LawfulEqOrd κ] in
theorem sortedKeys_eq (ord : HashOrder) (m : FinMap κ ν) :
    ord.sortedKeys m = m.toList.map (·.1) :=
  List.sortOn_eq (ord.perm _) (List.pairwise_map.mpr (pairwise_toList m))

/-- Looking up the sorted keys one after the other passes through the map in order. -/
theorem flatMap_sortedKeys {β : Type} {m : FinMap κ ν} {g : κ → List β} {f : κ → ν → List β}
    (ord : HashOrder) (h : ∀ (k : κ) (v : ν), m[k]? = some v → g k = f k v) :
    (ord.sortedKeys m).flatMap g = m.toList.flatMap fun p => f p.1 p.2 := by
  rw [sortedKeys_eq, List.flatMap_map]
  exact List.flatMap_congr fun p hp => h p.1 p.2 (mem_toList.mp hp)

end HashOrder

/-! ### Maps written entry by entry -/

namespace FinMap

section LastWrites

variable {τ κ : Type} [DecidableEq κ]

/-- Of the writes at one key, the last. -/
def lastWrites (key : τ → κ) (l : List τ) : List τ := l.pwFilter fun t u => key t ≠ key u

variable {key : τ → κ} {l : List τ} {t : τ}

theorem lastWrites_sublist : (lastWrites key l).Sublist l := List.pwFilter_sublist l

theorem pairwise_lastWrites : (lastWrites key l).Pairwise fun t u => key t ≠ key u :=
  List.pairwise_pwFilter l

theorem forall_mem_lastWrites :
    (∀ u ∈ lastWrites key l, key t ≠ key u) ↔ ∀ u ∈ l, key t ≠ key u := by
  refine List.forall_mem_pwFilter (R := fun t u => key t ≠ key u) (fun {x y z} hxz => ?_) t l
  by_cases hxy : key x = key y
  · exact .inr (hxy ▸ hxz)
  · exact .inl hxy

theorem lastWrites_cons (h : ∀ u ∈ l, key t ≠ key u) :
    lastWrites key (t :: l) = t :: lastWrites key l :=
  List.pwFilter_cons_of_pos (forall_mem_lastWrites.mpr h)

theorem lastWrites_cons_replaced (h : ¬ ∀ u ∈ l, key t ≠ key u) :
    lastWrites key (t :: l) = lastWrites key l :=
  List.pwFilter_cons_of_neg fun h' => h (forall_mem_lastWrites.mp h')

/-- The last writes tell as much as all of them if nothing is lost with the others. -/
theorem flatMap_lastWrites {β : Type} {f : τ → List β}
    (h : l.Pairwise fun t u => key t = key u → f t = []) :
    (lastWrites key l).flatMap f = l.flatMap f := by
  induction l with
  | nil => rfl
  | cons t l ih =>
    obtain ⟨ht, hl⟩ := List.pairwise_cons.mp h
    by_cases hlast : ∀ u ∈ l, key t ≠ key u
    · rw [lastWrites_cons hlast, List.flatMap_cons, List.flatMap_cons, ih hl]
    · rw [lastWrites_cons_replaced hlast, List.flatMap_cons, ih hl]
      push Not at hlast
      obtain ⟨u, hu, heq⟩ := hlast
      rw [ht u hu heq, List.nil_append]

/-- And only then: what is lost is missing in the count. -/
theorem nil_of_length_lastWrites {β : Type} {f : τ → List β}
    (h : ((lastWrites key l).flatMap f).length = (l.flatMap f).length) :
    l.Pairwise fun t u => key t = key u → f t = [] := by
  induction l with
  | nil => exact .nil
  | cons t l ih =>
    have hsub : (lastWrites key l).Sublist l := lastWrites_sublist
    have hle := (hsub.flatMap f).length_le
    by_cases hlast : ∀ u ∈ l, key t ≠ key u
    · rw [lastWrites_cons hlast] at h
      simp only [List.flatMap_cons, List.length_append] at h
      exact .cons (fun u hu heq => absurd heq (hlast u hu)) (ih (by omega))
    · rw [lastWrites_cons_replaced hlast] at h
      simp only [List.flatMap_cons, List.length_append] at h
      have hnil : f t = [] := List.eq_nil_of_length_eq_zero (by omega)
      exact .cons (fun _ _ _ => hnil) (ih (by omega))

end LastWrites

variable {τ κ ν : Type} [Ord κ] [Std.TransOrd κ]

/-- The map that a list of writes leaves. -/
def writeAll (key : τ → κ) (value : τ → ν) (l : List τ) : FinMap κ ν :=
  l.foldl (fun m t => m.insert (key t) (value t)) ∅

variable [Std.LawfulEqOrd κ] [DecidableEq κ] {key : τ → κ} {value : τ → ν} {l : List τ}

theorem get_foldl_insert (m : FinMap κ ν) (k : κ) (v : ν) :
    (l.foldl (fun m t => m.insert (key t) (value t)) m)[k]? = some v ↔
      (∃ t ∈ lastWrites key l, key t = k ∧ value t = v) ∨
        (∀ t ∈ l, key t ≠ k) ∧ m[k]? = some v := by
  induction l generalizing m with
  | nil => simp [lastWrites]
  | cons t l ih =>
    rw [List.foldl_cons, ih, get_insert]
    by_cases hlast : ∀ u ∈ l, key t ≠ key u
    · rw [lastWrites_cons hlast]
      by_cases hk : key t = k
      · subst hk
        have hnone : (∀ u ∈ l, ¬ key u = key t) ↔ True :=
          iff_true_intro fun u hu => (hlast u hu).symm
        simp [hnone, or_comm]
      · simp [hk]
    · rw [lastWrites_cons_replaced hlast]
      by_cases hk : key t = k
      · subst hk
        push Not at hlast
        obtain ⟨u, hu, heq⟩ := hlast
        have hnot : ¬ ∀ u ∈ l, key u ≠ key t := fun h => h u hu heq.symm
        simp [hnot]
      · simp [hk]

/-- **What is left.** The values of the map are those of the last writes. -/
theorem perm_writeAll (key : τ → κ) (value : τ → ν) (l : List τ) :
    ((writeAll key value l).toList.map (·.2)).Perm ((lastWrites key l).map value) := by
  have hpairs : (writeAll key value l).toList.Perm
      ((lastWrites key l).map fun t => (key t, value t)) := by
    refine (List.perm_ext_iff_of_nodup (nodup_toList _) ?_).mpr fun p => ?_
    · refine List.pairwise_map.mpr (pairwise_lastWrites.imp fun {t u} hne heq => ?_)
      exact hne (Prod.mk.inj heq).1
    · rw [mem_toList, writeAll, get_foldl_insert, List.mem_map]
      simp [Prod.ext_iff]
  have hvalues := hpairs.map (·.2)
  rw [List.map_map] at hvalues
  exact hvalues

end FinMap

/-! ### Collected in hash order and sorted -/

namespace List

/-- Without repetition, two elements stand in one order only. -/
theorem Nodup.not_sublist_swap {α : Type} {a b : α} {l : List α} (hnodup : l.Nodup)
    (hab : [a, b].Sublist l) (hba : [b, a].Sublist l) : False := by
  induction l with
  | nil => cases hab
  | cons c l ih =>
    obtain ⟨hc, hl⟩ := List.nodup_cons.mp hnodup
    cases hab with
    | cons _ hab =>
      cases hba with
      | cons _ hba => exact ih hl hab hba
      | cons_cons _ _ => exact hc (hab.subset (by simp))
    | cons_cons _ hb =>
      cases hba with
      | cons _ hba => exact hc (hba.subset (by simp))
      | cons_cons _ _ => exact hc (hb.subset (by simp))

/-- Two members stand in one order or the other. -/
theorem sublist_or_swap {α : Type} {a b : α} {l : List α} (ha : a ∈ l) (hb : b ∈ l)
    (hne : a ≠ b) : [a, b].Sublist l ∨ [b, a].Sublist l := by
  obtain ⟨l₁, l₂, rfl⟩ := List.append_of_mem ha
  rcases List.mem_append.mp hb with hb | hb
  · exact .inr ((List.singleton_sublist.mpr hb).append
      (List.singleton_sublist.mpr List.mem_cons_self))
  · have hb : b ∈ l₂ := (List.mem_cons.mp hb).resolve_left (Ne.symm hne)
    exact .inl (((List.singleton_sublist.mpr hb).cons_cons a).trans
      (List.sublist_append_right l₁ _))

/-- One element from each of two lists of a concatenation. -/
theorem pair_sublist_flatMap {α β : Type} {f : α → List β} {l : List α} {t u : α} {a b : β}
    (h : [t, u].Sublist l) (ha : a ∈ f t) (hb : b ∈ f u) : [a, b].Sublist (l.flatMap f) := by
  have hpair : [a, b].Sublist ([t, u].flatMap f) := by
    rw [List.flatMap_cons, List.flatMap_singleton]
    exact (List.singleton_sublist.mpr ha).append (List.singleton_sublist.mpr hb)
  exact hpair.trans (h.flatMap f)

end List

namespace HashOrder

open FinMap

variable {τ κ ν ε μ : Type} [Ord κ] [Std.TransOrd κ] [Ord μ]

/-- Everything the values of a map hold, collected in hash order and sorted. -/
def collect (ord : HashOrder) (m : FinMap κ ν) (g : ν → List ε) (rank : ε → μ) : List ε :=
  ((ord.visit (m.toList.map (·.2))).flatMap g).sortOn rank

theorem perm_collect (ord : HashOrder) (m : FinMap κ ν) (g : ν → List ε) (rank : ε → μ) :
    (ord.collect m g rank).Perm ((m.toList.map (·.2)).flatMap g) :=
  (List.perm_sortOn _ _).trans ((ord.perm _).flatMap_right g)

/-- Where two elements of different values tie, some hash order shows them the other way round. -/
theorem exists_swapped {m : FinMap κ ν} {g : ν → List ε} {rank : ε → μ} {v w : ν} {a b : ε}
    (hv : v ∈ m.toList.map (·.2)) (hw : w ∈ m.toList.map (·.2)) (hne : v ≠ w) (ha : a ∈ g v)
    (hb : b ∈ g w) (htie : (compare (rank b) (rank a)).isLE) :
    ∃ ord : HashOrder, [b, a].Sublist (ord.collect m g rank) := by
  have horder : ∃ ord : HashOrder, [w, v].Sublist (ord.visit (m.toList.map (·.2))) := by
    rcases List.sublist_or_swap hv hw hne with h | h
    · exact ⟨.reversed, h.reverse⟩
    · exact ⟨.sorted, h⟩
  obtain ⟨ord, h⟩ := horder
  exact ⟨ord, List.pair_sublist_insertionSort htie (List.pair_sublist_flatMap h hb ha)⟩

variable [Std.LawfulEqOrd κ] [DecidableEq κ]

theorem perm_collect_writeAll (ord : HashOrder) (key : τ → κ) (value : τ → ν) (l : List τ)
    (g : ν → List ε) (rank : ε → μ) :
    (ord.collect (writeAll key value l) g rank).Perm
      ((lastWrites key l).flatMap fun t => g (value t)) := by
  have hvalues := (perm_writeAll key value l).flatMap_right g
  rw [List.flatMap_map (f := value)] at hvalues
  exact (perm_collect ord _ g rank).trans hvalues

variable [Std.TransOrd μ] {key : τ → κ} {value : τ → ν} {l : List τ} {g : ν → List ε}
  {rank : ε → μ}

/-- If every hash order shows the same, ranks do not tie. -/
theorem rank_lt_of_steady {L : List ε} {a b : ε}
    (hrows : ∀ t ∈ l, (g (value t)).Pairwise fun a b => compare (rank a) (rank b) = .lt)
    (hsteady : ∀ ord : HashOrder, ord.collect (writeAll key value l) g rank = L)
    (hnodup : L.Nodup) (hab : [a, b].Sublist L) : compare (rank a) (rank b) = .lt := by
  have hvalue : ∀ c ∈ L, ∃ v ∈ (writeAll key value l).toList.map (·.2), c ∈ g v := fun c hc => by
    rw [← hsteady .sorted] at hc
    exact List.mem_flatMap.mp ((perm_collect ..).mem_iff.mp hc)
  obtain ⟨v, hv, ha⟩ := hvalue a (hab.subset (by simp))
  obtain ⟨w, hw, hb⟩ := hvalue b (hab.subset (by simp))
  have hle : (compare (rank a) (rank b)).isLE := by
    have hsorted := List.pairwise_sortOn rank
      ((HashOrder.sorted.visit ((writeAll key value l).toList.map (·.2))).flatMap g)
    refine List.pairwise_iff_forall_sublist.mp hsorted ?_
    rw [← hsteady .sorted] at hab
    exact hab
  cases hcompare : compare (rank a) (rank b) with
  | lt => rfl
  | gt =>
    rw [hcompare] at hle
    cases hle
  | eq =>
    have hback : compare (rank b) (rank a) = .eq := by
      rw [List.compare_swap, hcompare]
      rfl
    by_cases hvw : v = w
    · subst hvw
      obtain ⟨t, ht, rfl⟩ := List.mem_map.mp ((perm_writeAll key value l).mem_iff.mp hv)
      have hrow := hrows t (lastWrites_sublist.subset ht)
      have hne : a ≠ b := by
        rintro rfl
        exact hnodup.not_sublist_swap hab hab
      rcases List.sublist_or_swap ha hb hne with hsub | hsub
      · exact absurd (List.pairwise_iff_forall_sublist.mp hrow hsub) (by simp [hcompare])
      · exact absurd (List.pairwise_iff_forall_sublist.mp hrow hsub) (by simp [hback])
    · obtain ⟨ord, hba⟩ := exists_swapped hv hw hvw ha hb (by rw [hback]; rfl)
      rw [hsteady ord] at hba
      exact (hnodup.not_sublist_swap hab hba).elim

/-- **Order of execution.** What was written, collected in any hash order and sorted, is in the
order of the writes exactly when no write that holds something is replaced and the ranks rise
from each write to the later ones. -/
theorem collect_eq_iff (key : τ → κ) (value : τ → ν) (l : List τ) (g : ν → List ε) (rank : ε → μ)
    (hrows : ∀ t ∈ l, (g (value t)).Pairwise fun a b => compare (rank a) (rank b) = .lt)
    (hdisjoint : ∀ t u, key t ≠ key u → (g (value t)).Disjoint (g (value u))) :
    (∀ ord : HashOrder,
      ord.collect (writeAll key value l) g rank = l.flatMap fun t => g (value t)) ↔
      l.Pairwise (fun t u => key t = key u → g (value t) = []) ∧
        l.Pairwise fun t u =>
          ∀ a ∈ g (value t), ∀ b ∈ g (value u), compare (rank a) (rank b) = .lt := by
  constructor
  · intro h
    have hperm := perm_collect_writeAll .sorted key value l g rank
    rw [h .sorted] at hperm
    have hlost := nil_of_length_lastWrites hperm.length_eq.symm
    have hnodup : (l.flatMap fun t => g (value t)).Nodup := by
      refine List.nodup_flatMap.mpr ⟨fun t ht => (hrows t ht).imp fun {a b} hlt heq => ?_,
        hlost.imp fun {t u} hlost => ?_⟩
      · rw [heq, Std.compare_self] at hlt
        cases hlt
      · by_cases heq : key t = key u
        · show (g (value t)).Disjoint (g (value u))
          rw [hlost heq]
          exact List.disjoint_nil_left _
        · exact hdisjoint t u heq
    refine ⟨hlost, List.pairwise_iff_forall_sublist.mpr fun {t u} htu a ha b hb => ?_⟩
    have hab := List.pair_sublist_flatMap (f := fun t => g (value t)) htu ha hb
    exact rank_lt_of_steady hrows h hnodup hab
  · rintro ⟨hlost, hrise⟩ ord
    have hperm := perm_collect_writeAll ord key value l g rank
    rw [flatMap_lastWrites hlost] at hperm
    refine List.sortOn_eq ((List.perm_sortOn _ _).symm.trans hperm) ?_
    exact List.pairwise_flatMap.mpr ⟨hrows, hrise⟩

end HashOrder
