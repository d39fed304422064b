import Mathlib.Algebra.BigOperators.Group.List.Basic
import Mathlib.Data.List.TakeWhile
import Mathlib.Order.Defs.LinearOrder
import Mathlib.Order.Lattice
import Mathlib.Tactic.Common
/-!
# Hypercore.Lib.Grouped

Lists in which entries of one key stand together, and what they add up to.

`Grouped` cuts such a list into its groups and is what one inducts on; every sorted list is
one (`Grouped.of_sorted`). `keys` are the keys in the order of the groups, and the entries
of a key are its whole group, so that a sum over the list is the sum over the keys of the
sums over the groups (`Grouped.sum_keys`).
-/

namespace Grouping

universe u v

variable {α : Type u} {κ : Type v} [DecidableEq κ] {f : α → κ}

/-- Entries of one key stand together. -/
inductive Grouped (f : α → κ) : List α → Prop
  | nil : Grouped f []
  | cons (a : α) (same rest : List α) (hsame : ∀ b ∈ same, f b = f a)
      (hrest : ∀ b ∈ rest, f b ≠ f a) (tail : Grouped f rest) : Grouped f (a :: (same ++ rest))

variable (f) in
/-- The keys of a list, each where it comes first. -/
def keys (l : List α) : List κ := (l.map f).eraseDups

variable (f) in
/-- The entries of a key. -/
def group (l : List α) (k : κ) : List α := l.filter fun a => f a = k

@[simp] theorem keys_nil : keys f [] = [] := rfl

variable {same rest : List α}

/-- The keys of a list are those of its first group and of the others. -/
theorem keys_cons {a : α} (hsame : ∀ b ∈ same, f b = f a) (hrest : ∀ b ∈ rest, f b ≠ f a) :
    keys f (a :: (same ++ rest)) = f a :: keys f rest := by
  unfold keys
  rw [List.map_cons, List.eraseDups_cons, List.map_append, List.filter_append]
  have hnone : (same.map f).filter (fun k => !k == f a) = [] := by
    rw [List.filter_eq_nil_iff]
    intro k hk
    obtain ⟨b, hb, rfl⟩ := List.mem_map.mp hk
    simp [hsame b hb]
  have hall : (rest.map f).filter (fun k => !k == f a) = rest.map f := by
    rw [List.filter_eq_self]
    intro k hk
    obtain ⟨b, hb, rfl⟩ := List.mem_map.mp hk
    simp [hrest b hb]
  rw [hnone, hall, List.nil_append]

/-- The entries of the first key are the first group. -/
theorem group_cons_self {a : α} (hsame : ∀ b ∈ same, f b = f a) (hrest : ∀ b ∈ rest, f b ≠ f a) :
    group f (a :: (same ++ rest)) (f a) = a :: same := by
  unfold group
  rw [List.filter_cons_of_pos (by simp), List.filter_append,
    List.filter_eq_self.mpr fun b hb => by simpa using hsame b hb,
    List.filter_eq_nil_iff.mpr fun b hb => by simpa using hrest b hb, List.append_nil]

/-- The entries of any other key come later. -/
theorem group_cons_ne {a : α} (hsame : ∀ b ∈ same, f b = f a) {k : κ} (hk : k ≠ f a) :
    group f (a :: (same ++ rest)) k = group f rest k := by
  unfold group
  rw [List.filter_cons_of_neg (by simpa using Ne.symm hk), List.filter_append,
    List.filter_eq_nil_iff.mpr fun b hb => ?_, List.nil_append]
  rw [hsame b hb]
  simpa using Ne.symm hk

namespace Grouped

variable {l : List α}

theorem mem_keys (h : Grouped f l) {k : κ} : k ∈ keys f l ↔ ∃ a ∈ l, f a = k := by
  induction h with
  | nil => simp
  | cons a same rest hsame hrest _ ih =>
    rw [keys_cons hsame hrest, List.mem_cons, ih]
    constructor
    · rintro (rfl | ⟨b, hb, rfl⟩)
      · exact ⟨a, .head _, rfl⟩
      · exact ⟨b, .tail _ (List.mem_append_right _ hb), rfl⟩
    · rintro ⟨b, hb, rfl⟩
      rcases List.mem_cons.mp hb with rfl | hb
      · exact .inl rfl
      · rcases List.mem_append.mp hb with hb | hb
        · exact .inl (hsame b hb)
        · exact .inr ⟨b, hb, rfl⟩

/-- What is computed of the groups, key by key. -/
theorem map_keys_cons {β : Type*} {a : α} {same rest : List α} (hsame : ∀ b ∈ same, f b = f a)
    (hrest : ∀ b ∈ rest, f b ≠ f a) (tail : Grouped f rest) (F : κ → List α → β) :
    (keys f (a :: (same ++ rest))).map (fun k => F k (group f (a :: (same ++ rest)) k)) =
      F (f a) (a :: same) :: (keys f rest).map fun k => F k (group f rest k) := by
  rw [keys_cons hsame hrest, List.map_cons, group_cons_self hsame hrest]
  congr 1
  refine List.map_congr_left fun k hk => ?_
  obtain ⟨b, hb, rfl⟩ := tail.mem_keys.mp hk
  rw [group_cons_ne hsame (hrest b hb)]

/-- A sum over the list, group by group. -/
theorem sum_keys {M : Type*} [AddCommMonoid M] (h : Grouped f l) (g : α → M) :
    ((keys f l).map fun k => ((group f l k).map g).sum).sum = (l.map g).sum := by
  induction h with
  | nil => rfl
  | cons a same rest hsame hrest tail ih =>
    rw [tail.map_keys_cons hsame hrest fun _ l => (l.map g).sum, List.sum_cons, ih,
      List.map_cons, List.sum_cons, List.map_cons, List.sum_cons, List.map_append,
      List.sum_append, add_assoc]

/-- The keys come in the order of the entries. -/
theorem pairwise_keys {R : κ → κ → Prop} (h : Grouped f l)
    (hl : l.Pairwise fun a b => f a ≠ f b → R (f a) (f b)) : (keys f l).Pairwise R := by
  induction h with
  | nil => exact .nil
  | cons a same rest hsame hrest tail ih =>
    obtain ⟨hfirst, hl⟩ := List.pairwise_cons.mp hl
    rw [keys_cons hsame hrest]
    refine .cons (fun k hk => ?_) (ih (List.pairwise_append.mp hl).2.1)
    obtain ⟨b, hb, rfl⟩ := tail.mem_keys.mp hk
    exact hfirst b (List.mem_append_right _ hb) (hrest b hb).symm

/-- A list that is sorted by a rank, with one rank for each key, is grouped. -/
theorem of_sorted {β : Type*} [LinearOrder β] (r : α → β) : ∀ {l : List α},
    l.Pairwise (fun a b => r a ≤ r b) → (∀ a ∈ l, ∀ b ∈ l, f a = f b ↔ r a = r b) →
      Grouped f l
  | [], _, _ => .nil
  | a :: l, hsorted, hrank => by
    obtain ⟨hfirst, hl⟩ := List.pairwise_cons.mp hsorted
    have hrank' : ∀ b ∈ l, f b = f a ↔ r b = r a := fun b hb =>
      hrank b (.tail _ hb) a (.head _)
    have hdrop := List.dropWhile_sublist (l := l) fun b => decide (f b = f a)
    have hrest : ∀ b ∈ l.dropWhile fun b => f b = f a, f b ≠ f a := by
      intro b hb
      have hpairwise := hl.sublist hdrop
      cases hcases : l.dropWhile fun b => decide (f b = f a) with
      | nil =>
        rw [hcases] at hb
        cases hb
      | cons c rest =>
        -- the first entry of another key has a higher rank, and so have those behind it
        have hc : f c ≠ f a := by
          have hhead := List.head?_dropWhile_not (fun b => decide (f b = f a)) l
          rw [hcases] at hhead
          simpa using hhead
        have hcl : c ∈ l := hdrop.subset (by rw [hcases]; exact .head _)
        have hlt : r a < r c :=
          lt_of_le_of_ne (hfirst c hcl) fun heq => hc ((hrank' c hcl).mpr heq.symm)
        have hle : r c ≤ r b := by
          rw [hcases] at hb hpairwise
          rcases List.mem_cons.mp hb with rfl | hb
          · exact le_refl _
          · exact (List.pairwise_cons.mp hpairwise).1 b hb
        intro heq
        have hab := (hrank' b (hdrop.subset hb)).mp heq
        exact absurd (lt_of_lt_of_le hlt hle) (by rw [hab]; exact lt_irrefl _)
    have hsame : ∀ b ∈ l.takeWhile fun b => f b = f a, f b = f a := fun b hb => by
      simpa using List.mem_takeWhile_imp hb
    have htail : Grouped f (l.dropWhile fun b => f b = f a) :=
      of_sorted r (hl.sublist hdrop) fun x hx y hy =>
        hrank x (.tail _ (hdrop.subset hx)) y (.tail _ (hdrop.subset hy))
    have hcons := Grouped.cons a _ _ hsame hrest htail
    rwa [List.takeWhile_append_dropWhile] at hcons
termination_by l => l.length
decreasing_by
  have := hdrop.length_le
  simp only [List.length_cons]
  omega

end Grouped

end Grouping
