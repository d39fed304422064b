import Hypercore.Lib.Exec
/-!
# Hypercore.Lib.Sim

Two computations side by side.

`Sim R x y` says that both return, with results related by `R`, or both halt in the
same way. The rules follow the way computations are put together, so that a relation
between two states is carried through a program one statement at a time.
-/

namespace Exec

universe u v w

variable {α α' : Type u} {β β' : Type v} {R : α → α' → Prop}

/-- Both return related results, or both halt in the same way. -/
inductive Sim (R : α → α' → Prop) : Exec α → Exec α' → Prop
  | ok {a : α} {a' : α'} : R a a' → Sim R (.ok a) (.ok a')
  | halt (h : Halt) : Sim R (.error h) (.error h)

namespace Sim

variable {x : Exec α} {y : Exec α'}

/-- The rule of a sequence, for halves that depend on what the first ones returned. -/
theorem bind_of_ok {β β' : Type u} {S : β → β' → Prop} {f : α → Exec β} {g : α' → Exec β'}
    (h : Sim R x y) (hfg : ∀ a a', x = .ok a → y = .ok a' → R a a' → Sim S (f a) (g a')) :
    Sim S (x >>= f) (y >>= g) := by
  cases h with
  | ok h => exact hfg _ _ rfl rfl h
  | halt h => exact .halt h

/-- The rule of a sequence. -/
theorem bind {β β' : Type u} {S : β → β' → Prop} {f : α → Exec β} {g : α' → Exec β'} (h : Sim R x y)
    (hfg : ∀ a a', R a a' → Sim S (f a) (g a')) :
    Sim S (x >>= f) (y >>= g) := h.bind_of_ok fun a a' _ _ => hfg a a'

/-- A sequence whose first half is the same computation on both sides. -/
theorem bind_same {β β' : Type u} {S : β → β' → Prop} (x : Exec α) {f : α → Exec β}
    {g : α → Exec β'} (hfg : ∀ a, Sim S (f a) (g a)) : Sim S (x >>= f) (x >>= g) := by
  cases x with
  | error h => exact .halt h
  | ok a => exact hfg a

/-- The rule of a branch on the same condition. -/
theorem ite {c : Prop} [Decidable c] {x' : Exec α} {y' : Exec α'} (h : c → Sim R x y)
    (h' : ¬ c → Sim R x' y') : Sim R (if c then x else x') (if c then y else y') := by
  by_cases hc : c
  · rw [if_pos hc, if_pos hc]
    exact h hc
  · rw [if_neg hc, if_neg hc]
    exact h' hc

/-- A relation that holds of every value with itself holds of every computation with itself. -/
theorem refl {S : α → α → Prop} (h : ∀ a, S a a) (x : Exec α) : Sim S x x := by
  cases x with
  | error e => exact .halt e
  | ok a => exact .ok (h a)

theorem symm (h : Sim R x y) : Sim (fun a' a => R a a') y x := by
  cases h with
  | ok h => exact .ok h
  | halt h => exact .halt h

/-- Computations related to a common one are related by the composition. -/
theorem comp {α'' : Type u} {S : α' → α'' → Prop} {T : α → α'' → Prop} {z : Exec α''}
    (h : Sim R x y) (h' : Sim S y z) (hT : ∀ a a' a'', R a a' → S a' a'' → T a a'') :
    Sim T x z := by
  cases h with
  | ok h =>
    cases h' with
    | ok h' => exact .ok (hT _ _ _ h h')
  | halt h =>
    cases h' with
    | halt _ => exact .halt h

theorem mono {S : α → α' → Prop} (h : Sim R x y) (himp : ∀ a a', R a a' → S a a') : Sim S x y := by
  cases h with
  | ok h => exact .ok (himp _ _ h)
  | halt h => exact .halt h

/-- Computations whose results agree under two functions are equal under them. -/
theorem map_eq {β : Type u} {f : α → β} {g : α' → β} (h : Sim (fun a a' => f a = g a') x y) :
    f <$> x = g <$> y := by
  cases h with
  | ok h => exact congrArg Except.ok h
  | halt h => rfl

/-- Conversely, computations that are equal under two functions have results that agree. -/
theorem of_map_eq {β : Type u} {f : α → β} {g : α' → β} (h : f <$> x = g <$> y) :
    Sim (fun a a' => f a = g a') x y := by
  cases x with
  | error e =>
    cases y with
    | error e' =>
      obtain rfl := Except.error.inj h
      exact .halt e
    | ok a' => cases h
  | ok a =>
    cases y with
    | error e' => cases h
    | ok a' => exact .ok (Except.ok.inj h)

/-- The rule of a fold: related states stay related along the same list. -/
theorem foldlM {ι : Type w} {f : α → ι → Exec α} {g : α' → ι → Exec α'} (is : List ι) {a : α}
    {a' : α'} (h : R a a') (hstep : ∀ i ∈ is, ∀ a a', R a a' → Sim R (f a i) (g a' i)) :
    Sim R (is.foldlM f a) (is.foldlM g a') := by
  induction is generalizing a a' with
  | nil => exact .ok h
  | cons i is ih =>
    rw [List.foldlM_cons, List.foldlM_cons]
    exact (hstep i (.head _) a a' h).bind fun b b' hb =>
      ih hb fun j hj => hstep j (.tail _ hj)

end Sim

end Exec
