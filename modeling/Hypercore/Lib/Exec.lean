import Mathlib.Algebra.BigOperators.Group.List.Basic
import Mathlib.Algebra.Group.Int.Defs
import Mathlib.Algebra.Ring.Int.Defs
import Mathlib.Tactic.Common
/-!
# Hypercore.Lib.Exec

Computations that can stop the process instead of returning.

`Exec α` is `Except Halt α`: a value, or one of the two ways a call never
returns. A program's own error values are ordinary data inside `α`, because a
call that returns an error still returns, and leaves its state behind.

The rules here are the ones every later proof is built from: inversion of a
`bind` that returned (`bind_inv`), and the fold rule `foldlM_induction`.
-/

namespace Exec

universe u v

/-- The two ways a call does not return. -/
inductive Halt
  /-- `panic!`, a failed `expect`, or an arithmetic overflow. -/
  | panic
  /-- A loop whose body runs for ever. -/
  | diverge
  deriving DecidableEq, Repr

end Exec

/-- A computation that returns a value or halts the process. -/
abbrev Exec (α : Type u) := Except Exec.Halt α

namespace Exec

variable {α β : Type u}
variable {a : α} {b : β} {x : Exec α} {ε : Type v}

@[simp] theorem pure_eq_ok {b : α} : (pure a : Exec α) = .ok b ↔ a = b := by
  simp [pure, Except.pure]

variable {f : α → Exec β} {ys : List α}

/-- **Inversion.** A sequence returns exactly when both halves do. -/
@[simp] theorem bind_eq_ok :
    (x >>= f) = .ok b ↔ ∃ a, x = .ok a ∧ f a = .ok b := by
  cases x with
  | error e => simp [bind, Except.bind]
  | ok a => simp [bind, Except.bind]

theorem bind_inv {f : α → Exec β} (h : (x >>= f) = .ok b) :
    ∃ a, x = .ok a ∧ f a = .ok b := bind_eq_ok.mp h

theorem pure_inv {b : α} (h : (pure a : Exec α) = .ok b) : a = b := pure_eq_ok.mp h

theorem pair_inv {c : α} {d : β} (h : (pure (a, b) : Exec (α × β)) = .ok (c, d)) :
    a = c ∧ b = d := Prod.mk.inj (pure_inv h)

/-- A computation returns one value. -/
theorem ok_unique {x : Except ε α} {b : α} (h : x = .ok a) (h' : x = .ok b) :
    a = b := Except.ok.inj (h.symm.trans h')

/-- A sequence that succeeds, with any type of errors. -/
theorem ok_of_bind {x : Except ε α} {f : α → Except ε β} (h : (x >>= f) = .ok b) :
    ∃ a, x = .ok a ∧ f a = .ok b := by
  cases x with
  | error e => cases h
  | ok a => exact ⟨a, rfl, h⟩

@[simp] theorem ok_bind : ((.ok a : Exec α) >>= f) = f a := rfl

@[simp] theorem error_bind {e : Halt} :
    ((.error e : Exec α) >>= f) = .error e := rfl

@[simp] theorem map_eq_ok {f : α → β} :
    (f <$> x) = .ok b ↔ ∃ a, x = .ok a ∧ f a = b := by
  cases x with
  | error e => simp [Functor.map, Except.map]
  | ok a => simp [Functor.map, Except.map]

/-- A test that comes out true on the result of a computation: there is a result, and
it passes. -/
theorem exists_of_test {α : Type} {x : Exec α} {p : α → Bool}
    (h : p <$> x = (.ok true : Exec Bool)) :
    ∃ a, x = .ok a ∧ p a = true := map_eq_ok.mp h

/-- A test of the error that a call returns, and of the state it leaves. -/
def rejects {ε α σ : Type} (x : Exec (Except ε α × σ)) (p : ε → σ → Bool) : Bool :=
  match x with
  | .ok (.error e, s) => p e s
  | _ => false

theorem of_rejects {ε α σ : Type} {x : Exec (Except ε α × σ)} {p : ε → σ → Bool}
    (h : rejects x p = true) : ∃ e s, x = .ok (.error e, s) ∧ p e s = true := by
  unfold rejects at h
  split at h
  · exact ⟨_, _, rfl, h⟩
  · cases h

/-- A test of the value that a call returns. -/
def yields {α : Type} (x : Exec (Option α)) (p : α → Bool) : Bool :=
  match x with
  | .ok (some a) => p a
  | _ => false

theorem of_yields {α : Type} {x : Exec (Option α)} {p : α → Bool} (h : yields x p = true) :
    ∃ a, x = .ok (some a) ∧ p a = true := by
  unfold yields at h
  split at h
  · exact ⟨_, rfl, h⟩
  · cases h

/-- What a computation returns, if it returns, has a property. -/
def After {α : Type u} (x : Exec α) (P : α → Prop) : Prop := ∀ a, x = .ok a → P a

@[simp] theorem after_ok {P : α → Prop} : After (.ok a) P ↔ P a :=
  ⟨fun h => h a rfl, fun h _ hb => Except.ok.inj hb ▸ h⟩

instance {x : Exec α} {P : α → Prop} [DecidablePred P] : Decidable (After x P) :=
  match x with
  | .ok a => decidable_of_iff (P a) after_ok.symm
  | .error _ => .isTrue fun _ h => nomatch h

/-! ### Maps -/

theorem mapM_cons_eq_ok {ι : Type u} {f : ι → Exec α} {i : ι} {is : List ι} :
    (i :: is).mapM f = .ok ys ↔
      ∃ y, f i = .ok y ∧ ∃ zs, is.mapM f = .ok zs ∧ y :: zs = ys := by
  simp only [List.mapM_cons, bind_eq_ok, pure_eq_ok]

theorem mapM_congr {ι : Type u} {f g : ι → Exec α} {is : List ι} (h : ∀ i ∈ is, f i = g i) :
    is.mapM f = is.mapM g := by
  induction is with
  | nil => rfl
  | cons i is ih =>
    rw [List.mapM_cons, List.mapM_cons, h i (.head _), ih fun j hj => h j (.tail _ hj)]

/-- Every result of a map comes from an item, and every item has its result. -/
theorem mapM_mem {ι : Type u} {f : ι → Exec α} {is : List ι} (h : is.mapM f = .ok ys) :
    (∀ y ∈ ys, ∃ i ∈ is, f i = .ok y) ∧ ∀ i ∈ is, ∃ y ∈ ys, f i = .ok y := by
  induction is generalizing ys with
  | nil =>
    obtain rfl := pure_inv h
    exact ⟨fun _ hy => absurd hy List.not_mem_nil, fun _ hi => absurd hi List.not_mem_nil⟩
  | cons i is ih =>
    obtain ⟨y, hy, zs, hzs, rfl⟩ := mapM_cons_eq_ok.mp h
    obtain ⟨hfrom, hto⟩ := ih hzs
    refine ⟨fun z hz => ?_, fun j hj => ?_⟩
    · rcases List.mem_cons.mp hz with rfl | hz
      · exact ⟨i, .head _, hy⟩
      · obtain ⟨j, hj, hfj⟩ := hfrom z hz
        exact ⟨j, .tail _ hj, hfj⟩
    · rcases List.mem_cons.mp hj with rfl | hj
      · exact ⟨y, .head _, hy⟩
      · obtain ⟨z, hz, hfz⟩ := hto j hj
        exact ⟨z, .tail _ hz, hfz⟩

/-- A filtered map returns on a nonempty list exactly when its head and tail do. -/
theorem filterMapM_cons_eq_ok {ι : Type u} {f : ι → Exec (Option α)} {i : ι} {is : List ι} :
    (i :: is).filterMapM f = .ok ys ↔
      ∃ o, f i = .ok o ∧ ∃ zs, is.filterMapM f = .ok zs ∧ o.toList ++ zs = ys := by
  rw [List.filterMapM_cons, bind_eq_ok]
  refine exists_congr fun o => and_congr_right fun _ => ?_
  cases o <;> simp

/-- A filtered map that keeps keys returns some of them, in order. -/
theorem filterMapM_keys {κ ν μ : Type u} {f : κ × ν → Exec (Option (κ × μ))}
    (hf : ∀ x y, f x = .ok (some y) → y.1 = x.1) {l : List (κ × ν)} :
    ∀ {ys : List (κ × μ)}, l.filterMapM f = .ok ys →
      (ys.map Prod.fst).Sublist (l.map Prod.fst) := by
  induction l with
  | nil =>
    intro ys h
    obtain rfl := pure_inv h
    exact .slnil
  | cons x l ih =>
    intro ys h
    obtain ⟨o, ho, ys, hys, rfl⟩ := filterMapM_cons_eq_ok.mp h
    cases o with
    | none => exact (ih hys).cons _
    | some y =>
      rw [List.map_cons, ← hf x y ho]
      exact (ih hys).cons_cons _

/-- **Order of a filtered map.** On a permuted list it returns the same results, permuted. -/
theorem filterMapM_perm {ι : Type u} {f : ι → Exec (Option α)} {is js : List ι}
    (hp : is.Perm js) : ∀ {ys : List α}, is.filterMapM f = .ok ys →
      ∃ zs, js.filterMapM f = .ok zs ∧ ys.Perm zs := by
  induction hp with
  | nil => exact fun h => ⟨_, h, .refl _⟩
  | cons i _ ih =>
    intro ys h
    obtain ⟨o, ho, ys, hys, rfl⟩ := filterMapM_cons_eq_ok.mp h
    obtain ⟨zs, hzs, hperm⟩ := ih hys
    exact ⟨_, filterMapM_cons_eq_ok.mpr ⟨o, ho, zs, hzs, rfl⟩, hperm.append_left _⟩
  | swap i j _ =>
    intro ys h
    obtain ⟨o, ho, xs, hxs, rfl⟩ := filterMapM_cons_eq_ok.mp h
    obtain ⟨o', ho', ys, hys, rfl⟩ := filterMapM_cons_eq_ok.mp hxs
    refine ⟨_, filterMapM_cons_eq_ok.mpr
      ⟨o', ho', _, filterMapM_cons_eq_ok.mpr ⟨o, ho, ys, hys, rfl⟩, rfl⟩, ?_⟩
    rw [← List.append_assoc, ← List.append_assoc]
    exact List.perm_append_comm.append_right _
  | trans _ _ ih ih' =>
    intro ys h
    obtain ⟨zs, hzs, hperm⟩ := ih h
    obtain ⟨ws, hws, hperm'⟩ := ih' hzs
    exact ⟨ws, hws, hperm.trans hperm'⟩

/-! ### Folds -/

section Fold

variable {σ : Type u} {ι : Type v}
variable {f : σ → ι → Exec σ} {is : List ι} {s t : σ} {P : σ → Prop} {g : σ → ι → Exec α}

/-- A fold over a nonempty list returns exactly when its first step and the fold
over the tail do. -/
theorem foldlM_cons_eq_ok {i : ι} :
    (i :: is).foldlM f s = .ok t ↔ ∃ u, f s i = .ok u ∧ is.foldlM f u = .ok t := by
  rw [List.foldlM_cons, bind_eq_ok]

@[simp] theorem foldlM_nil_eq_ok :
    ([] : List ι).foldlM f s = .ok t ↔ s = t := by
  simp

/-- A property that every step preserves is preserved by the fold. The step may use
that its item comes from the list. -/
theorem foldlM_induction (h : is.foldlM f s = .ok t) (h0 : P s)
    (hstep : ∀ i ∈ is, ∀ s t, P s → f s i = .ok t → P t) : P t := by
  induction is generalizing s with
  | nil =>
    obtain rfl := foldlM_nil_eq_ok.mp h
    exact h0
  | cons i is ih =>
    obtain ⟨u, hu, h⟩ := foldlM_cons_eq_ok.mp h
    refine ih h (hstep i (by simp) s u h0 hu) ?_
    intro j hj
    exact hstep j (by simp [hj])

/-- The relational form: a reflexive and transitive relation that every step
respects relates the two ends of the fold. -/
theorem foldlM_rel {R : σ → σ → Prop} (h : is.foldlM f s = .ok t) (hrefl : ∀ s, R s s)
    (htrans : ∀ s t u, R s t → R t u → R s u) (hstep : ∀ i ∈ is, ∀ s t, f s i = .ok t → R s t) :
    R s t :=
  foldlM_induction (P := R s) h (hrefl s) fun i hi u v hu hv =>
    htrans _ _ _ hu (hstep i hi u v hv)

/-- Every step of a fold meets a condition on the state it starts in. -/
def FoldMeets (f : σ → ι → Exec σ) (ok : σ → ι → Prop) : List ι → σ → Prop
  | [], _ => True
  | i :: is, s => ok s i ∧ After (f s i) (FoldMeets f ok is)

instance FoldMeets.decidable {f : σ → ι → Exec σ} {ok : σ → ι → Prop}
    [∀ s i, Decidable (ok s i)] : ∀ is s, Decidable (FoldMeets f ok is s)
  | [], _ => .isTrue trivial
  | i :: is, s =>
    have : DecidablePred (FoldMeets f ok is) := FoldMeets.decidable is
    inferInstanceAs (Decidable (ok s i ∧ After (f s i) (FoldMeets f ok is)))

variable {ok : σ → ι → Prop}

/-- The fold rule with a condition on the steps. -/
theorem foldlM_meets (h : is.foldlM f s = .ok t) (hmeets : FoldMeets f ok is s) (h0 : P s)
    (hstep : ∀ s i t, P s → ok s i → f s i = .ok t → P t) : P t := by
  induction is generalizing s with
  | nil =>
    obtain rfl := foldlM_nil_eq_ok.mp h
    exact h0
  | cons i is ih =>
    obtain ⟨u, hu, h⟩ := foldlM_cons_eq_ok.mp h
    exact ih h (hmeets.2 u hu) (hstep s i u h0 hmeets.1 hu)

/-- When a condition on the steps is exactly what keeps an invariant, a fold that returns meets
it in each step exactly when it keeps the invariant in each state. -/
theorem foldMeets_iff (h : is.foldlM f s = .ok t) (h0 : P s)
    (hstep : ∀ s i t, P s → f s i = .ok t → (P t ↔ ok s i)) :
    FoldMeets f (fun s i => After (f s i) P) is s ↔ FoldMeets f ok is s := by
  induction is generalizing s with
  | nil => exact Iff.rfl
  | cons i is ih =>
    obtain ⟨u, hu, h⟩ := foldlM_cons_eq_ok.mp h
    have hiff := hstep s i u h0 hu
    unfold FoldMeets
    rw [hu, after_ok, after_ok, after_ok, hiff]
    exact and_congr_right fun hok => ih h (hiff.mpr hok)

/-- What `g` observes before each step of a fold. -/
def foldTrace (f : σ → ι → Exec σ) (g : σ → ι → Exec α) : List ι → σ → Exec (List α)
  | [], _ => return []
  | i :: is, s => do
    let y ← g s i
    let t ← f s i
    let ys ← foldTrace f g is t
    return y :: ys

theorem foldTrace_cons_eq_ok {i : ι} {zs : List α} :
    foldTrace f g (i :: is) s = .ok zs ↔ ∃ y, g s i = .ok y ∧
      ∃ t, f s i = .ok t ∧ ∃ ys, foldTrace f g is t = .ok ys ∧ y :: ys = zs := by
  simp only [foldTrace, bind_eq_ok, pure_eq_ok]

/-- A fold that returns has a trace, if every step can be observed. -/
theorem foldTrace_exists (h : is.foldlM f s = .ok t)
    (hg : ∀ s i t, f s i = .ok t → ∃ y, g s i = .ok y) :
    ∃ ys, foldTrace f g is s = .ok ys := by
  induction is generalizing s with
  | nil => exact ⟨[], rfl⟩
  | cons i is ih =>
    obtain ⟨u, hu, h⟩ := foldlM_cons_eq_ok.mp h
    obtain ⟨y, hy⟩ := hg s i u hu
    obtain ⟨ys, hys⟩ := ih h
    exact ⟨_, foldTrace_cons_eq_ok.mpr ⟨y, hy, u, hu, ys, hys, rfl⟩⟩

/-- **Accounting.** A value that every step moves by what is observed of it moves by the
sum of the trace. -/
theorem foldTrace_sum {v : σ → Int} {w : α → Int} {ys : List α} (h : is.foldlM f s = .ok t)
    (htrace : foldTrace f g is s = .ok ys) (h0 : P s) (hkeep : ∀ s i t, P s → f s i = .ok t → P t)
    (hstep : ∀ s i t y, P s → f s i = .ok t → g s i = .ok y → v t = v s + w y) :
    v t = v s + (ys.map w).sum := by
  induction is generalizing s ys with
  | nil =>
    obtain rfl := foldlM_nil_eq_ok.mp h
    obtain rfl := pure_inv htrace
    simp
  | cons i is ih =>
    obtain ⟨u, hu, h⟩ := foldlM_cons_eq_ok.mp h
    obtain ⟨y, hy, u', hu', ys, hys, rfl⟩ := foldTrace_cons_eq_ok.mp htrace
    obtain rfl := ok_unique hu hu'
    rw [ih h hys (hkeep _ _ _ h0 hu), hstep _ _ _ _ h0 hu hy, List.map_cons, List.sum_cons,
      add_assoc]

end Fold

end Exec
