import Hypercore.Lib.FinMap
import Mathlib.Data.List.Basic
/-!
# Hypercore.Lib.Journal

Journals: records that are framed by their length, and edits of a finite map that are
applied again.

A journal that is cut anywhere is a list of whole frames with a torn tail, and reading it
gives the records of the frames (`Framing.readFrames_eq`). Edits are idempotent over what
they were part of: applying a last stretch of them once more changes nothing
(`editAll_again`).
-/

/-! ### Frames -/

/-- A header of fixed width that tells the number of items after it, up to a bound. -/
structure Framing (β : Type) where
  width : Nat
  header : Nat → List β
  size : List β → Nat
  bound : Nat
  width_pos : 0 < width
  length_header : ∀ n, (header n).length = width
  size_header : ∀ n, n < bound → size (header n) = n

namespace Framing

variable {β : Type} (F : Framing β)

/-- A record behind its header. -/
def frame (data : List β) : List β := F.header data.length ++ data

/-- Read records one after the other until a header or a record is cut short. -/
def readFrames : Nat → List β → List (List β)
  | 0, _ => []
  | fuel + 1, bytes =>
    if bytes.length < F.width then []
    else
      let n := F.size (bytes.take F.width)
      let rest := bytes.drop F.width
      if rest.length < n then [] else rest.take n :: readFrames fuel (rest.drop n)

/-- Too short for a header, or for the record that the header tells. -/
def Torn (tail : List β) : Prop :=
  tail.length < F.width ∨ (tail.drop F.width).length < F.size (tail.take F.width)

variable {F} {data tail : List β} {records : List (List β)}

theorem readFrames_torn (h : F.Torn tail) (fuel : Nat) : F.readFrames fuel tail = [] := by
  cases fuel with
  | zero => rfl
  | succ fuel =>
    unfold readFrames
    rcases h with h | h
    · rw [if_pos h]
    · split
      · rfl
      · exact if_pos h

theorem length_frame : (F.frame data).length = F.width + data.length := by
  unfold frame
  rw [List.length_append, F.length_header]

theorem readFrames_frame (h : data.length < F.bound) (fuel : Nat) :
    F.readFrames (fuel + 1) (F.frame data ++ tail) = data :: F.readFrames fuel tail := by
  have htake : (F.frame data ++ tail).take F.width = F.header data.length := by
    unfold frame
    rw [List.append_assoc, List.take_append_of_le_length (F.length_header _).ge,
      List.take_of_length_le (F.length_header _).le]
  have hdrop : (F.frame data ++ tail).drop F.width = data ++ tail := by
    unfold frame
    rw [List.append_assoc, List.drop_append_of_le_length (F.length_header _).ge,
      List.drop_of_length_le (F.length_header _).le, List.nil_append]
  have hwidth : ¬ (F.frame data ++ tail).length < F.width := by
    rw [List.length_append, length_frame]
    omega
  have hsize : ¬ (data ++ tail).length < data.length := by
    rw [List.length_append]
    omega
  rw [readFrames, if_neg hwidth]
  simp only [htake, hdrop, F.size_header _ h]
  rw [if_neg hsize, List.take_left, List.drop_left]

/-- **Reading a journal that was cut.** The whole records are read, and the torn tail is not. -/
theorem readFrames_eq (hfits : ∀ d ∈ records, d.length < F.bound) (htorn : F.Torn tail)
    {fuel : Nat} (hfuel : records.length ≤ fuel) :
    F.readFrames fuel (records.flatMap F.frame ++ tail) = records := by
  induction records generalizing fuel with
  | nil => exact readFrames_torn htorn fuel
  | cons d records ih =>
    cases fuel with
    | zero => simp at hfuel
    | succ fuel =>
      rw [List.flatMap_cons, List.append_assoc, readFrames_frame (hfits d (.head _)),
        ih (fun d' hd' => hfits d' (.tail _ hd')) (by simpa using hfuel)]

/-- Each record takes a byte at least. -/
theorem length_le_flatMap : records.length ≤ (records.flatMap F.frame).length := by
  induction records with
  | nil => exact Nat.zero_le _
  | cons d records ih =>
    have hpos := F.width_pos
    rw [List.flatMap_cons, List.length_append, length_frame, List.length_cons]
    omega

theorem torn_nil : F.Torn ([] : List β) := .inl F.width_pos

/-- A frame that is cut short is a torn tail. -/
theorem torn_take (h : data.length < F.bound) {n : Nat} (hn : n < (F.frame data).length) :
    F.Torn ((F.frame data).take n) := by
  rw [length_frame] at hn
  by_cases hwidth : n < F.width
  · refine .inl ?_
    rw [List.length_take]
    omega
  · refine .inr ?_
    have htake : ((F.frame data).take n).take F.width = F.header data.length := by
      unfold frame
      rw [List.take_take, Nat.min_eq_left (by omega),
        List.take_append_of_le_length (F.length_header _).ge,
        List.take_of_length_le (F.length_header _).le]
    rw [htake, F.size_header _ h, List.length_drop, List.length_take, length_frame]
    omega

end Framing

/-! ### Edits -/

section Edits

variable {κ ν : Type} [Ord κ] [Std.TransOrd κ] [Std.LawfulEqOrd κ] [DecidableEq κ]

/-- Give a key a value, or take it out. -/
def edit (m : FinMap κ ν) : κ × Option ν → FinMap κ ν
  | (k, some v) => m.insert k v
  | (k, none) => m.erase k

/-- Edits one after the other. -/
def editAll (m : FinMap κ ν) (edits : List (κ × Option ν)) : FinMap κ ν := edits.foldl edit m

variable {m m' : FinMap κ ν} {edits before : List (κ × Option ν)} {k : κ}

omit [Std.LawfulEqOrd κ] [DecidableEq κ] in
theorem editAll_append (m : FinMap κ ν) (before edits : List (κ × Option ν)) :
    editAll m (before ++ edits) = editAll (editAll m before) edits := List.foldl_append

theorem get_edit (m : FinMap κ ν) (e : κ × Option ν) (k : κ) :
    (edit m e)[k]? = if e.1 = k then e.2 else m[k]? := by
  obtain ⟨a, v⟩ := e
  cases v with
  | none => exact FinMap.get_erase m a k
  | some v => exact FinMap.get_insert m a k v

/-- What a key has after edits depends on what it had only if no edit is of it. -/
theorem get_editAll_congr (h : (∃ e ∈ edits, e.1 = k) ∨ m[k]? = m'[k]?) :
    (editAll m edits)[k]? = (editAll m' edits)[k]? := by
  induction edits generalizing m m' with
  | nil =>
    rcases h with ⟨e, he, -⟩ | h
    · cases he
    · exact h
  | cons e edits ih =>
    refine ih ?_
    rw [get_edit, get_edit]
    by_cases hk : e.1 = k
    · exact .inr (by rw [if_pos hk, if_pos hk])
    · rw [if_neg hk, if_neg hk]
      rcases h with ⟨e', he', hk'⟩ | h
      · rcases List.mem_cons.mp he' with rfl | he'
        · exact absurd hk' hk
        · exact .inl ⟨e', he', hk'⟩
      · exact .inr h

theorem get_editAll_of_not_mem (h : ∀ e ∈ edits, e.1 ≠ k) : (editAll m edits)[k]? = m[k]? := by
  induction edits generalizing m with
  | nil => rfl
  | cons e edits ih =>
    refine (ih fun e' he' => h e' (.tail _ he')).trans ?_
    rw [get_edit, if_neg (h e (.head _))]

/-- **Replay.** A last stretch of edits changes nothing when it is applied once more. -/
theorem editAll_again (m : FinMap κ ν) (before edits : List (κ × Option ν)) :
    editAll (editAll m (before ++ edits)) edits = editAll m (before ++ edits) := by
  refine Std.ExtTreeMap.ext_getElem? fun k => ?_
  rw [editAll_append]
  by_cases h : ∃ e ∈ edits, e.1 = k
  · exact get_editAll_congr (.inl h)
  · exact get_editAll_of_not_mem fun e he hk => h ⟨e, he, hk⟩

end Edits
