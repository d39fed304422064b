import Mathlib.Tactic.Common
/-!
# Hypercore.Lib.Trace

Labelled transition relations and the words they read.

`Reads step s l t` says that the labels `l`, in this order, take `s` to `t`. A
history of a system is such a word, and a statement about histories is proved by
reading: what an invariant keeps (`invariant`), where a word can be cut (`cut`),
and which label is to blame when something has changed (`crossing`).
-/

namespace Trace

universe u v

variable {σ : Type u} {ε : Type v}

/-- The labels take one state to another, in order. -/
inductive Reads (step : σ → ε → σ → Prop) : σ → List ε → σ → Prop
  | nil (s : σ) : Reads step s [] s
  | cons {s t u : σ} {i : ε} {l : List ε} : step s i t → Reads step t l u →
      Reads step s (i :: l) u

namespace Reads

variable {step : σ → ε → σ → Prop} {s t u : σ} {i : ε} {l l' : List ε}

theorem single (h : step s i t) : Reads step s [i] t := .cons h (.nil t)

theorem append (h : Reads step s l t) (h' : Reads step t l' u) : Reads step s (l ++ l') u := by
  induction h with
  | nil => exact h'
  | cons hs _ ih => exact .cons hs (ih h')

/-- A word is read by reading its two halves. -/
theorem append_iff : Reads step s (l ++ l') u ↔ ∃ t, Reads step s l t ∧ Reads step t l' u := by
  refine ⟨fun h => ?_, fun ⟨t, h, h'⟩ => h.append h'⟩
  induction l generalizing s with
  | nil => exact ⟨s, .nil s, h⟩
  | cons i l ih =>
    cases h with
    | cons hs h =>
      obtain ⟨t, h, h'⟩ := ih h
      exact ⟨t, .cons hs h, h'⟩

/-- **Cutting at a label.** -/
theorem cut (h : Reads step s (l ++ i :: l') u) :
    ∃ t t', Reads step s l t ∧ step t i t' ∧ Reads step t' l' u := by
  obtain ⟨t, h, h'⟩ := append_iff.mp h
  cases h' with
  | cons hs h' => exact ⟨t, _, h, hs, h'⟩

/-- What every step preserves holds at the end. -/
theorem invariant {P : σ → Prop} (h : Reads step s l t) (h0 : P s)
    (hstep : ∀ s i t, P s → step s i t → P t) : P t := by
  induction h with
  | nil => exact h0
  | cons hs _ ih => exact ih (hstep _ _ _ h0 hs)

/-- **Crossing.** When a property holds at the end and not at the start, some label brings
it about. -/
theorem crossing {P : σ → Prop} (h : Reads step s l t) (h0 : ¬ P s) (h1 : P t) :
    ∃ i ∈ l, ∃ u v, step u i v ∧ ¬ P u ∧ P v := by
  induction h with
  | nil => exact absurd h1 h0
  | @cons s t u i l hs _ ih =>
    by_cases ht : P t
    · exact ⟨i, .head _, s, t, hs, h0, ht⟩
    · obtain ⟨j, hj, hcross⟩ := ih ht h1
      exact ⟨j, .tail _ hj, hcross⟩

end Reads

end Trace
