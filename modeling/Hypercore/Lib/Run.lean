import Hypercore.Lib.Exec
/-!
# Hypercore.Lib.Run

Runs of a deterministic system whose steps may halt.

`Reaches step ok s t` says that some finite sequence of inputs takes `s` to `t`,
where every step returned and was taken at a state and an input that satisfy
`ok`. With `ok` always true these are all runs; a smaller `ok` singles out the
runs that keep away from given branches.
-/

namespace Run

universe u v

variable {σ : Type u} {ι : Type v}

/-- Some run of `step` from `s` ends in `t`, each of its steps satisfying `ok`. -/
inductive Reaches (step : ι → σ → Exec σ) (ok : σ → ι → Prop) (s : σ) : σ → Prop
  | refl : Reaches step ok s s
  | tail {t u : σ} (i : ι) : Reaches step ok s t → ok t i → step i t = .ok u →
      Reaches step ok s u

variable {step : ι → σ → Exec σ} {ok ok' : σ → ι → Prop} {s t u : σ}

/-- **Run lemma.** What holds at the start and is preserved by every admitted step
holds at the end of every run. -/
theorem Reaches.invariant {P : σ → Prop} (h : Reaches step ok s t) (h0 : P s)
    (hstep : ∀ s i t, P s → ok s i → step i s = .ok t → P t) : P t := by
  induction h with
  | refl => exact h0
  | tail i _ hok hs ih => exact hstep _ i _ ih hok hs

/-- A run that meets a stronger guard meets a weaker one. -/
theorem Reaches.mono (h : Reaches step ok s t) (himp : ∀ s i, ok s i → ok' s i) :
    Reaches step ok' s t := by
  induction h with
  | refl => exact .refl
  | tail i _ hok hs ih => exact .tail i ih (himp _ _ hok) hs

theorem Reaches.trans (h : Reaches step ok s t) (h' : Reaches step ok t u) :
    Reaches step ok s u := by
  induction h' with
  | refl => exact h
  | tail i _ hok hs ih => exact .tail i ih hok hs

/-- The run that a list of inputs drives, all of them admitted in every state. -/
theorem Reaches.of_foldlM {is : List ι} (hok : ∀ i ∈ is, ∀ s, ok s i)
    (h : is.foldlM (fun s i => step i s) s = .ok t) : Reaches step ok s t :=
  Exec.foldlM_induction (P := Reaches step ok s) h .refl
    fun i hi s _ hr hs => hr.tail i (hok i hi s) hs

/-- The run that a list of inputs drives, with each step checked on the way. -/
theorem Reaches.of_checked {is : List ι} (check : (s : σ) → (i : ι) → Decidable (ok s i))
    (h : is.foldlM (fun s i => if ok s i then step i s else .error .panic) s = .ok t) :
    Reaches step ok s t := by
  refine Exec.foldlM_induction (P := Reaches step ok s) h .refl ?_
  intro i _ u v hr hs
  split at hs
  · rename_i hok
    exact hr.tail i hok hs
  · cases hs

end Run
