import Mathlib.Data.List.Basic
import Mathlib.Data.List.TakeWhile
import Mathlib.Logic.Basic
/-!
# Hypercore.Lib.CommandLoop

A thread that takes commands from a queue in batches, and looks for the command to stop only at
the head of a batch.

A run is given by the batches it takes. What it processes is `taken`; a stop in the middle of a
batch is passed over, so `taken` may go on behind it. It ends there all the same exactly when
nothing but stops is taken from then on (`prompt_iff`).
-/

namespace CommandLoop

variable {C S : Type} (isStop : C → Bool)

/-- What the loop processes of its batches. -/
def taken : List (List C) → List C
  | [] => []
  | [] :: rest => taken rest
  | (first :: more) :: rest => if isStop first then [] else first :: more ++ taken rest

/-- Whether the loop ends: it meets a batch headed by a stop, or runs dry on a closed queue. -/
def ends (closed : Bool) : List (List C) → Bool
  | [] => closed
  | [] :: rest => ends closed rest
  | (first :: _) :: rest => isStop first || ends closed rest

/-- The loop: batch after batch, until one is headed by a stop. -/
def loop {m : Type → Type} [Monad m] (process : S → C → m S) (closed : Bool) :
    List (List C) → S → m (S × Bool)
  | [], s => return (s, closed)
  | [] :: rest, s => loop process closed rest s
  | (first :: more) :: rest, s =>
    if isStop first then return (s, true)
    else do
      let s ← (first :: more).foldlM process s
      loop process closed rest s

/-- **The loop** processes what it takes, one command after the other. -/
theorem loop_eq {m : Type → Type} [Monad m] [LawfulMonad m] (process : S → C → m S)
    (closed : Bool) (batches : List (List C)) (s : S) :
    loop isStop process closed batches s = (do
      let s ← (taken isStop batches).foldlM process s
      return (s, ends isStop closed batches)) := by
  induction batches generalizing s with
  | nil => simp [loop, taken, ends]
  | cons batch rest ih =>
    cases batch with
    | nil => simpa only [loop, taken, ends] using ih s
    | cons first more =>
      unfold loop taken ends
      cases hstop : isStop first with
      | true => simp
      | false => simp [ih, List.foldlM_append]

/-- Stops that change nothing can be left out. -/
theorem foldlM_filter {m : Type → Type} [Monad m] [LawfulMonad m] {process : S → C → m S}
    (hstop : ∀ s c, isStop c = true → process s c = pure s) (l : List C) (s : S) :
    l.foldlM process s = (l.filter fun c => !isStop c).foldlM process s := by
  induction l generalizing s with
  | nil => rfl
  | cons c l ih =>
    by_cases hc : isStop c = true
    · rw [List.foldlM_cons, hstop s c hc, pure_bind, ih, List.filter_cons_of_neg (by simp [hc])]
    · rw [List.foldlM_cons, List.filter_cons_of_pos (by simp [hc]), List.foldlM_cons]
      exact bind_congr fun s => ih s

/-! ### The first stop -/

/-- What is sent before the first stop. -/
def beforeStop (commands : List C) : List C := commands.takeWhile fun c => !isStop c

/-- A queue that the loop finds at its turn ends it: a stop comes first, or the queue is empty
and closed. -/
def EndsAt (closed : Bool) (commands : List C) : Prop :=
  match commands.head? with
  | none => closed = true
  | some c => isStop c = true

/-- The first stop takes effect at once. It heads its batch; or behind it there are only stops in
its batch, and then one heads the next batch or the queue ends. -/
def Prompt (closed : Bool) : List (List C) → Prop
  | [] => closed = true
  | batch :: rest =>
    batch.head?.any isStop = true ∨
    (∀ c ∈ batch, isStop c = false) ∧ Prompt closed rest ∨
    (∃ c ∈ batch, isStop c = true) ∧
      (∀ c ∈ batch.dropWhile fun c => !isStop c, isStop c = true) ∧
      EndsAt isStop closed rest.flatten

theorem prompt_cons {closed : Bool} {batch : List C} {rest : List (List C)} :
    Prompt isStop closed (batch :: rest) ↔ batch.head?.any isStop = true ∨
      (∀ c ∈ batch, isStop c = false) ∧ Prompt isStop closed rest ∨
      (∃ c ∈ batch, isStop c = true) ∧
        (∀ c ∈ batch.dropWhile fun c => !isStop c, isStop c = true) ∧
        EndsAt isStop closed rest.flatten := Iff.rfl

section Stop

variable {isStop} {closed : Bool} {batches : List (List C)}

/-- Nothing but stops is taken, and the loop ends. -/
theorem taken_stops_iff : (∀ c ∈ taken isStop batches, isStop c = true) ∧
    ends isStop closed batches = true ↔ EndsAt isStop closed batches.flatten := by
  induction batches with
  | nil => simp [taken, ends, EndsAt]
  | cons batch rest ih =>
    cases batch with
    | nil => simpa [taken, ends] using ih
    | cons first more =>
      unfold taken ends EndsAt
      cases hstop : isStop first with
      | true => simp [hstop]
      | false => simp [hstop]

theorem filter_eq_nil_iff {l : List C} :
    l.filter (fun c => !isStop c) = [] ↔ ∀ c ∈ l, isStop c = true := by
  simp [List.filter_eq_nil_iff]

/-- A list without a stop in front of another. -/
theorem beforeStop_append_of_none {l l' : List C} (h : ∀ c ∈ l, isStop c = false) :
    beforeStop isStop (l ++ l') = l ++ beforeStop isStop l' := by
  unfold beforeStop
  rw [List.takeWhile_append_of_pos]
  intro c hc
  simp [h c hc]

/-- A list with a stop in front of another. -/
theorem beforeStop_append_of_some {l l' : List C} (h : ∃ c ∈ l, isStop c = true) :
    beforeStop isStop (l ++ l') = beforeStop isStop l := by
  unfold beforeStop
  rw [List.takeWhile_append]
  split
  · rename_i hlength
    obtain ⟨c, hc, hstop⟩ := h
    have hall := List.takeWhile_eq_self_iff.mp
      ((List.takeWhile_prefix _).eq_of_length hlength) c hc
    simp [hstop] at hall
  · rfl

/-- The commands of a list that are no stops: those before the first stop, and the others behind
it. -/
theorem filter_eq_beforeStop (l : List C) : l.filter (fun c => !isStop c) =
    beforeStop isStop l ++ (l.dropWhile fun c => !isStop c).filter fun c => !isStop c := by
  conv_lhs => rw [← List.takeWhile_append_dropWhile (p := fun c => !isStop c) (l := l)]
  rw [List.filter_append, List.filter_eq_self.mpr]
  · rfl
  · intro c hc
    exact List.mem_takeWhile_imp (p := fun c => !isStop c) hc

/-- **The first stop.** What is taken, the stops apart, is what was sent before the first stop,
and the loop ends, exactly when the stop is prompt. -/
theorem prompt_iff : (taken isStop batches).filter (fun c => !isStop c) =
      beforeStop isStop batches.flatten ∧ ends isStop closed batches = true ↔
    Prompt isStop closed batches := by
  induction batches with
  | nil => simp [taken, ends, beforeStop, Prompt]
  | cons batch rest ih =>
    cases batch with
    | nil => simpa [taken, ends, Prompt] using ih
    | cons first more =>
      rw [List.flatten_cons]
      by_cases hhead : isStop first = true
      · -- the loop takes nothing and ends
        simp [taken, ends, Prompt, beforeStop, hhead]
      · have htaken : taken isStop ((first :: more) :: rest) =
            (first :: more) ++ taken isStop rest := by simp [taken, hhead]
        have hends : ends isStop closed ((first :: more) :: rest) = ends isStop closed rest := by
          simp [ends, hhead]
        rw [htaken, hends, List.filter_append]
        by_cases hnone : ∀ c ∈ first :: more, isStop c = false
        · have hkept : (first :: more).filter (fun c => !isStop c) = first :: more :=
            List.filter_eq_self.mpr fun c hc => by simp [hnone c hc]
          have hpresent : ¬ ∃ c ∈ first :: more, isStop c = true := by
            rintro ⟨c, hc, hstop⟩
            simp [hnone c hc] at hstop
          rw [hkept, beforeStop_append_of_none hnone, List.append_cancel_left_eq, ih, prompt_cons]
          have hhead' : ¬ (first :: more).head?.any isStop = true := hhead
          simp only [eq_false hhead', eq_true hnone, eq_false hpresent, false_and, or_false,
            false_or, true_and]
        · have hsome : ∃ c ∈ first :: more, isStop c = true := by
            by_contra hno
            exact hnone fun c hc => Bool.eq_false_iff.mpr fun hstop => hno ⟨c, hc, hstop⟩
          have hhead' : ¬ (first :: more).head?.any isStop = true := hhead
          rw [beforeStop_append_of_some hsome, filter_eq_beforeStop, List.append_assoc,
            List.append_right_eq_self, List.append_eq_nil_iff, filter_eq_nil_iff,
            filter_eq_nil_iff, and_assoc, taken_stops_iff, prompt_cons]
          simp only [eq_false hhead', eq_false hnone, eq_true hsome, false_and, false_or,
            true_and]

end Stop

end CommandLoop
