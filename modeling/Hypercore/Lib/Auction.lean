import Mathlib.Tactic.Common
import Mathlib.Tactic.Linarith
import Mathlib.Algebra.BigOperators.Group.List.Basic
import Mathlib.Algebra.Group.Int.Defs
/-!
# Hypercore.Lib.Auction

The greedy walk down one side of a price-time book.

**Reference meaning of matching.** The resting entries are given as a list, best
first. The walk stops when nothing is left to fill or the next entry does not
cross, drops entries the taker owns, and takes from each other entry as much as
both sides allow. Nothing here knows how a book stores its entries; an
implementation is compared with `walk` and inherits the lemmas below.
-/

namespace Auction

variable {α : Type}

/-- What the walk needs to know about a resting entry. -/
structure Rules (α : Type) where
  /-- The entry belongs to the taker. -/
  own : α → Bool
  /-- The entry's price is acceptable to the taker. -/
  crosses : α → Bool
  /-- The quantity the entry offers. -/
  size : α → Int

/-- The result of a walk. -/
structure Outcome (α : Type) where
  /-- Entries taken from, each with the quantity taken, in order. -/
  taken : List (α × Int)
  /-- The taker's own entries that were in the way. -/
  dropped : List α
  /-- The quantity left unfilled. -/
  unfilled : Int

/-- Walk down the side with quantity `r` to fill. -/
def walk (R : Rules α) : List α → Int → Outcome α
  | [], r => ⟨[], [], r⟩
  | a :: as, r =>
    if r = 0 ∨ R.crosses a = false then ⟨[], [], r⟩
    else if R.own a then
      let w := walk R as r
      { w with dropped := a :: w.dropped }
    else if r ≤ R.size a then ⟨[(a, r)], [], 0⟩
    else
      let w := walk R as (r - R.size a)
      { w with taken := (a, R.size a) :: w.taken }

/-- What is left to fill when some entries cannot be taken off the side: an entry of
another that stays offers its quantity over and over, and an entry of the taker's own that
stays is met forever. `none` when the walk never ends. -/
def sweep (R : Rules α) (stays : α → Bool) : List α → Int → Option Int
  | [], r => some r
  | a :: as, r =>
    if r = 0 ∨ R.crosses a = false then some r
    else if R.own a then if stays a then none else sweep R stays as r
    else if r ≤ R.size a then some 0
    else if stays a then if 0 < R.size a then some 0 else none
    else sweep R stays as (r - R.size a)

theorem sweep_zero (R : Rules α) (stays : α → Bool) (l : List α) :
    sweep R stays l 0 = some 0 := by
  cases l with
  | nil => rfl
  | cons a as => exact if_pos (.inl rfl)

variable {stays : α → Bool} {as : List α}

/-- A quantity that another offers over and over ends the sweep. -/
theorem sweep_cons_stays {R : Rules α} {a : α} {r : Int} (hown : R.own a = false)
    (hstays : stays a = true) (hsize : 0 < R.size a) :
    sweep R stays (a :: as) r ≠ none := by
  rw [sweep, hown, if_neg (c := false = true) (by simp), if_pos hstays, if_pos hsize]
  split
  · simp
  · split <;> simp

/-- An entry of another that stays is taken from once, and then again. -/
theorem sweep_again {R : Rules α} {a : α} {r : Int} (hcross : R.crosses a = true)
    (hown : R.own a = false) (hstays : stays a = true) (hr : R.size a < r) :
    sweep R stays (a :: as) (r - R.size a) = if 0 < R.size a then some 0 else none := by
  rw [sweep, hcross, hown, hstays, if_neg (by simp; omega), if_neg (by simp), if_pos rfl]
  split
  · rw [if_pos (by omega)]
  · rfl

/-- The quantities that are taken on such a side, in order: an entry of another that stays
is taken from until nothing is left to fill. -/
def takes (R : Rules α) (stays : α → Bool) : List α → Int → List (α × Int)
  | [], _ => []
  | a :: as, r =>
    if r = 0 ∨ R.crosses a = false then []
    else if R.own a then if stays a then [] else takes R stays as r
    else if r ≤ R.size a then [(a, r)]
    else if stays a then
      List.replicate ((r - 1) / R.size a).toNat (a, R.size a) ++ [(a, (r - 1) % R.size a + 1)]
    else (a, R.size a) :: takes R stays as (r - R.size a)

theorem takes_zero (R : Rules α) (stays : α → Bool) (l : List α) : takes R stays l 0 = [] := by
  cases l with
  | nil => rfl
  | cons a as => exact if_pos (.inl rfl)

theorem takes_mem {R : Rules α} {l : List α} {r : Int} {p : α × Int} (hp : p ∈ takes R stays l r) :
    p.1 ∈ l := by
  induction l generalizing r with
  | nil => cases hp
  | cons a as ih =>
    rw [takes] at hp
    split_ifs at hp
    · cases hp
    · cases hp
    · exact .tail _ (ih hp)
    · rw [List.mem_singleton.mp hp]
      exact .head _
    · rcases List.mem_append.mp hp with hp | hp
      · rw [List.eq_of_mem_replicate hp]
        exact .head _
      · rw [List.mem_singleton.mp hp]
        exact .head _
    · rcases List.mem_cons.mp hp with rfl | hp
      · exact .head _
      · exact .tail _ (ih hp)

/-- An entry of another that stays is taken from once, and then again. -/
theorem takes_again {R : Rules α} {a : α} {r : Int} (hcross : R.crosses a = true)
    (hown : R.own a = false) (hstays : stays a = true) (hsize : 0 < R.size a) (hr : R.size a < r) :
    takes R stays (a :: as) r = (a, R.size a) :: takes R stays (a :: as) (r - R.size a) := by
  have hgoes : ∀ {q : Int}, 0 < q → ¬ (q = 0 ∨ R.crosses a = false) := by
    rintro q hq (rfl | hc)
    · exact lt_irrefl _ hq
    · exact absurd (hcross.symm.trans hc) (by simp)
  have hnot : ¬ R.own a = true := by simp [hown]
  have hsplit : r - 1 = (r - R.size a - 1) + 1 * R.size a := by omega
  have hdiv : (r - 1) / R.size a = (r - R.size a - 1) / R.size a + 1 := by
    rw [hsplit, Int.add_mul_ediv_right _ _ hsize.ne']
  have hmod : (r - 1) % R.size a = (r - R.size a - 1) % R.size a := by
    rw [hsplit, Int.add_mul_emod_self_right]
  rw [takes, takes, if_neg (hgoes (by omega)), if_neg (hgoes (by omega)), if_neg hnot, if_neg hnot,
    if_neg (by omega), if_pos hstays, if_pos hstays, hdiv, hmod]
  split
  · rw [Int.ediv_eq_zero_of_lt (by omega) (by omega), Int.emod_eq_of_lt (by omega) (by omega)]
    simp
  · have hnonneg : 0 ≤ (r - R.size a - 1) / R.size a := Int.ediv_nonneg (by omega) hsize.le
    rw [Int.toNat_add hnonneg (by omega)]
    rfl

/-- The walk reaches, with something left to fill, an entry of the taker's own that stays. -/
def Meets (R : Rules α) (stays : α → Bool) (l : List α) (r : Int) : Prop :=
  ∃ l₁ a l₂, l = l₁ ++ a :: l₂ ∧ (∀ b ∈ l₁, R.crosses b = true ∧ stays b = false) ∧
    R.crosses a = true ∧ R.own a = true ∧ stays a = true ∧
    ((l₁.filter fun b => !R.own b).map R.size).sum < r

theorem sum_size_nonneg {R : Rules α} {l : List α} (h : ∀ a ∈ l, 0 < R.size a) :
    0 ≤ (l.map R.size).sum := by
  induction l with
  | nil => exact le_refl _
  | cons a as ih =>
    have ha := h a (.head _)
    have has := ih fun b hb => h b (.tail _ hb)
    rw [List.map_cons, List.sum_cons]
    omega

/-- With positive quantities a sweep never ends exactly when it meets such an entry. -/
theorem sweep_eq_none_iff {R : Rules α} {l : List α} {r : Int} (hl : ∀ a ∈ l, 0 < R.size a)
    (hr : 0 ≤ r) :
    sweep R stays l r = none ↔ Meets R stays l r := by
  induction l generalizing r with
  | nil =>
    refine iff_of_false (by simp [sweep]) ?_
    rintro ⟨l₁, a, l₂, h, -⟩
    cases l₁ <;> cases h
  | cons a as ih =>
    have has : ∀ b ∈ as, 0 < R.size b := fun b hb => hl b (.tail _ hb)
    have ha := hl a (.head _)
    -- the entry met is the first one, or it is met behind the first one
    have hsplit : Meets R stays (a :: as) r ↔
        (R.crosses a = true ∧ R.own a = true ∧ stays a = true ∧ 0 < r) ∨
        (R.crosses a = true ∧ stays a = false ∧
          Meets R stays as (r - if R.own a then 0 else R.size a)) := by
      have hhead : ∀ l₁, (((a :: l₁).filter fun b => !R.own b).map R.size).sum =
          (if R.own a then 0 else R.size a) + ((l₁.filter fun b => !R.own b).map R.size).sum := by
        intro l₁
        cases hown : R.own a <;> simp [hown]
      constructor
      · rintro ⟨l₁, b, l₂, h, hall, h1, h2, h3, hsum⟩
        cases l₁ with
        | nil =>
          obtain ⟨rfl, rfl⟩ := List.cons.inj h
          exact .inl ⟨h1, h2, h3, hsum⟩
        | cons c l₁ =>
          obtain ⟨rfl, rfl⟩ := List.cons.inj h
          rw [hhead] at hsum
          exact .inr ⟨(hall _ (.head _)).1, (hall _ (.head _)).2, l₁, b, l₂, rfl,
            fun d hd => hall d (.tail _ hd), h1, h2, h3, by omega⟩
      · rintro (⟨h1, h2, h3, hpos⟩ | ⟨h1, h2, l₁, b, l₂, rfl, hall, h3, h4, h5, hsum⟩)
        · exact ⟨[], a, as, rfl, fun b hb => absurd hb List.not_mem_nil, h1, h2, h3, hpos⟩
        · refine ⟨a :: l₁, b, l₂, rfl, fun d hd => ?_, h3, h4, h5, by rw [hhead]; omega⟩
          rcases List.mem_cons.mp hd with rfl | hd
          · exact ⟨h1, h2⟩
          · exact hall d hd
    -- nothing is met without something left to fill
    have hnone : ∀ {r' : Int}, r' ≤ 0 → ¬ Meets R stays as r' := by
      rintro r' hle ⟨l₁, b, l₂, rfl, -, -, -, -, hsum⟩
      have : 0 ≤ ((l₁.filter fun b => !R.own b).map R.size).sum :=
        sum_size_nonneg fun c hc => has c (List.mem_append_left _ (List.mem_of_mem_filter hc))
      omega
    rw [hsplit, sweep]
    by_cases hstop : r = 0 ∨ R.crosses a = false
    · rw [if_pos hstop]
      refine iff_of_false (by simp) ?_
      rcases hstop with rfl | hc
      · rintro (⟨-, -, -, h⟩ | ⟨-, -, h⟩)
        · exact lt_irrefl _ h
        · exact hnone (by split <;> omega) h
      · simp [hc]
    rw [if_neg hstop]
    push Not at hstop
    have hc : R.crosses a = true := by simpa using hstop.2
    by_cases hown : R.own a = true
    · rw [if_pos hown, if_pos hown, sub_zero]
      cases hstays : stays a with
      | true =>
        rw [if_pos rfl]
        exact iff_of_true rfl (.inl ⟨hc, hown, rfl, by omega⟩)
      | false =>
        rw [if_neg (by simp), ih has hr]
        simp [hc]
    rw [if_neg hown, if_neg hown]
    by_cases hle : r ≤ R.size a
    · rw [if_pos hle]
      refine iff_of_false (by simp) ?_
      rintro (⟨-, h, -⟩ | ⟨-, -, h⟩)
      · exact hown h
      · exact hnone (by omega) h
    rw [if_neg hle]
    cases hstays : stays a with
    | true => simp [ha, hown]
    | false =>
      rw [if_neg (by simp), ih has (by omega)]
      simp [hc]

/-- What the walk leaves of an entry; `shrink` takes a quantity from an entry. -/
def Outcome.leaves [DecidableEq α] (w : Outcome α) (R : Rules α) (shrink : α → Int → α)
    (a : α) : Option α :=
  if a ∈ w.dropped then none
  else match w.taken.find? (·.1 = a) with
    | none => some a
    | some (_, f) => if R.size a = f then none else some (shrink a f)

section Leaves

variable [DecidableEq α] {w : Outcome α} {R : Rules α} {shrink : α → Int → α} {a b : α} {f : Int}

@[simp] theorem leaves_nil {u : Int} :
    (⟨[], [], u⟩ : Outcome α).leaves R shrink a = some a := by
  simp [Outcome.leaves]

theorem leaves_drop_self :
    ({ w with dropped := a :: w.dropped } : Outcome α).leaves R shrink a = none := by
  simp [Outcome.leaves]

theorem leaves_drop_ne (h : a ≠ b) :
    ({ w with dropped := a :: w.dropped } : Outcome α).leaves R shrink b =
      w.leaves R shrink b := by
  simp [Outcome.leaves, h.symm]

theorem leaves_take_all : ({ w with taken := (a, R.size a) :: w.taken } : Outcome α).leaves
    R shrink a = none := by
  simp [Outcome.leaves]

theorem leaves_take_last {u : Int} : (⟨[(a, f)], [], u⟩ : Outcome α).leaves R shrink a =
    if R.size a = f then none else some (shrink a f) := by
  simp [Outcome.leaves]

theorem leaves_take_ne (h : a ≠ b) :
    ({ w with taken := (a, f) :: w.taken } : Outcome α).leaves R shrink b =
      w.leaves R shrink b := by
  simp [Outcome.leaves, h]

end Leaves

section Facts

variable {R : Rules α} {l : List α} {r : Int}

/-- Everything taken or dropped comes from the list. -/
theorem walk_mem : (∀ p ∈ (walk R l r).taken, p.1 ∈ l) ∧ ∀ a ∈ (walk R l r).dropped, a ∈ l := by
  induction l generalizing r with
  | nil => simp [walk]
  | cons a as ih =>
    rw [walk]
    split_ifs
    · simp
    · refine ⟨fun p hp => .tail _ (ih.1 p hp), fun b hb => ?_⟩
      rcases List.mem_cons.mp hb with rfl | hb
      · exact .head _
      · exact .tail _ (ih.2 b hb)
    · simp
    · refine ⟨fun p hp => ?_, fun b hb => .tail _ (ih.2 b hb)⟩
      rcases List.mem_cons.mp hp with rfl | hp
      · exact .head _
      · exact .tail _ (ih.1 p hp)

/-- **Conservation.** What is taken and what is left add up. -/
theorem walk_sum : ((walk R l r).taken.map (·.2)).sum + (walk R l r).unfilled = r := by
  induction l generalizing r with
  | nil => simp [walk]
  | cons a as ih =>
    rw [walk]
    split_ifs
    · simp
    · exact ih
    · simp
    · have := ih (r := r - R.size a)
      simp only [List.map_cons, List.sum_cons]
      omega

/-- With positive quantities on both sides every quantity taken is positive and at
most what the entry offers. -/
theorem walk_taken_pos (hl : ∀ a ∈ l, 0 < R.size a) (hr : 0 ≤ r) :
    (∀ p ∈ (walk R l r).taken, 0 < p.2 ∧ p.2 ≤ R.size p.1) ∧ 0 ≤ (walk R l r).unfilled := by
  induction l generalizing r with
  | nil => simpa [walk] using hr
  | cons a as ih =>
    have hl' : ∀ b ∈ as, 0 < R.size b := fun b hb => hl b (.tail _ hb)
    rw [walk]
    split_ifs with hstop _ hle
    · exact ⟨by simp, hr⟩
    · exact ih hl' hr
    · push Not at hstop
      refine ⟨?_, le_refl _⟩
      intro p hp
      obtain rfl := List.mem_singleton.mp hp
      exact ⟨by have := hstop.1; simp only; omega, hle⟩
    · have hrec := ih hl' (r := r - R.size a) (by omega)
      refine ⟨fun p hp => ?_, hrec.2⟩
      rcases List.mem_cons.mp hp with rfl | hp
      · exact ⟨hl a (.head _), le_refl _⟩
      · exact hrec.1 p hp

variable [DecidableEq α] {shrink : α → Int → α}

/-- The quantity that an entry still offers after the walk. -/
def Outcome.remains (w : Outcome α) (R : Rules α) (shrink : α → Int → α) (a : α) : Int :=
  ((w.leaves R shrink a).map R.size).getD 0

/-- **Both sides lose the same.** What the entries of others lose together is what the
taker gains. -/
theorem walk_lost (hshrink : ∀ a f, R.size (shrink a f) = R.size a - f) (hl : l.Nodup) :
    ((l.filter fun a => !R.own a).map fun a =>
      R.size a - (walk R l r).remains R shrink a).sum = r - (walk R l r).unfilled := by
  -- entries other than the first are left as the walk down the rest leaves them
  have hrest : ∀ {a : α} {as : List α} {w v : Outcome α}, a ∉ as →
      (∀ b, a ≠ b → w.leaves R shrink b = v.leaves R shrink b) →
      ((as.filter fun a => !R.own a).map fun a => R.size a - w.remains R shrink a) =
        (as.filter fun a => !R.own a).map fun a => R.size a - v.remains R shrink a := by
    intro a as w v ha hw
    refine List.map_congr_left fun b hb => ?_
    have hab : a ≠ b := by
      rintro rfl
      exact ha (List.mem_of_mem_filter hb)
    rw [Outcome.remains, Outcome.remains, hw b hab]
  have hnil : ∀ (as : List α) (u : Int), ((as.filter fun a => !R.own a).map fun a =>
      R.size a - (⟨[], [], u⟩ : Outcome α).remains R shrink a).sum = 0 := by
    intro as u
    simp [Outcome.remains]
  induction l generalizing r with
  | nil => simp [walk]
  | cons a as ih =>
    rw [List.nodup_cons] at hl
    rw [walk]
    split_ifs with hstop hown hle
    · rw [hnil, sub_self]
    · rw [List.filter_cons_of_neg (by simpa using hown),
        hrest (v := walk R as r) hl.1 fun b hb => leaves_drop_ne hb]
      exact ih hl.2
    · rw [List.filter_cons_of_pos (by simpa using hown), List.map_cons, List.sum_cons,
        hrest (v := ⟨[], [], 0⟩) hl.1 fun b hb => leaves_take_ne (w := ⟨[], [], 0⟩) hb, hnil,
        Outcome.remains, leaves_take_last]
      split
      · rename_i he
        simp [he]
      · simp [hshrink]
    · rw [List.filter_cons_of_pos (by simpa using hown), List.map_cons, List.sum_cons,
        hrest (v := walk R as (r - R.size a)) hl.1 fun b hb => leaves_take_ne hb, ih hl.2,
        Outcome.remains, leaves_take_all, Option.map_none, Option.getD_none]
      show R.size a - 0 + (r - R.size a - (walk R as (r - R.size a)).unfilled) =
        r - (walk R as (r - R.size a)).unfilled
      omega

/-- When something is left unfilled, everything left on the side does not cross, provided
the list is sorted so that no entry behind one that does not cross crosses. -/
theorem walk_left_not_crossing (hl : l.Nodup)
    (hsorted : l.Pairwise fun a b => R.crosses a = false → R.crosses b = false)
    (hu : (walk R l r).unfilled ≠ 0) :
    ∀ a ∈ l, (walk R l r).leaves R shrink a ≠ none → R.crosses a = false := by
  induction l generalizing r with
  | nil => simp
  | cons a as ih =>
    rw [List.nodup_cons] at hl
    rw [List.pairwise_cons] at hsorted
    rw [walk] at hu ⊢
    have hne : ∀ b ∈ as, a ≠ b := by
      rintro b hb rfl
      exact hl.1 hb
    split_ifs at hu ⊢ with hstop hown hle
    · have ha : R.crosses a = false := hstop.resolve_left hu
      intro b hb _
      rcases List.mem_cons.mp hb with rfl | hb
      · exact ha
      · exact hsorted.1 b hb ha
    · intro b hb hleft
      rcases List.mem_cons.mp hb with rfl | hb
      · exact absurd leaves_drop_self hleft
      · rw [leaves_drop_ne (hne b hb)] at hleft
        exact ih hl.2 hsorted.2 hu b hb hleft
    · exact absurd rfl hu
    · intro b hb hleft
      rcases List.mem_cons.mp hb with rfl | hb
      · exact absurd leaves_take_all hleft
      · rw [leaves_take_ne (hne b hb)] at hleft
        exact ih hl.2 hsorted.2 hu b hb hleft

/-- An entry that is left is the entry itself, or the entry after a take that was less
than it offered. -/
theorem leaves_cases {w : Outcome α} {a b : α} (h : w.leaves R shrink a = some b) :
    b = a ∨ ∃ f, (a, f) ∈ w.taken ∧ R.size a ≠ f ∧ b = shrink a f := by
  unfold Outcome.leaves at h
  split_ifs at h
  split at h
  · exact .inl (Option.some.inj h).symm
  · rename_i a' f hfind
    split_ifs at h with hne
    have ha : a' = a := by simpa using List.find?_some hfind
    subst ha
    exact .inr ⟨f, List.mem_of_find?_eq_some hfind, hne, (Option.some.inj h).symm⟩

end Facts

end Auction
