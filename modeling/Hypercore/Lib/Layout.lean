import Hypercore.Lib.Codec
import Mathlib.Data.Subtype
import Mathlib.Logic.Equiv.Defs
/-!
# Hypercore.Lib.Layout

Formats that are read off the front of a string.

A format writes values and reads them back, whatever follows; and it reads nothing but what it
writes. So a string has at most one reading, formats can be put one behind the other, and how
many there are of something can be written in front of it.

Every format is a codec whose texts cannot be cut (`codec_sized`).
-/

universe u v w

/-- A format for values of `α`, in strings over `β`. -/
structure Layout (β : Type u) (α : Type v) where
  write : α → List β
  /-- The value at the front, and what follows it. -/
  read : List β → Option (α × List β)
  read_iff : ∀ text a rest, read text = some (a, rest) ↔ text = write a ++ rest

namespace Layout

variable {β : Type u} {α : Type v} {α' : Type w} (W : Layout β α)

/-- **Round trip.** -/
@[simp] theorem read_write (a : α) (rest : List β) : W.read (W.write a ++ rest) = some (a, rest) :=
  (W.read_iff _ a rest).mpr rfl

/-- A value that is read was written there. -/
theorem eq_of_read {text : List β} {x : α × List β} (h : W.read text = some x) :
    text = W.write x.1 ++ x.2 := (W.read_iff _ _ _).mp h

/-- The value at the front of a string, whatever follows it. -/
def front (text : List β) : Option α := (W.read text).map (·.1)

theorem front_iff {text : List β} {a : α} :
    W.front text = some a ↔ ∃ rest, text = W.write a ++ rest := by
  unfold front
  constructor
  · intro h
    obtain ⟨⟨a, rest⟩, hread, rfl⟩ := Option.map_eq_some_iff.mp h
    exact ⟨rest, W.eq_of_read hread⟩
  · intro ⟨rest, h⟩
    rw [h, W.read_write]
    rfl

/-! ### Blocks of one width -/

section Block

/-- The first symbols, and the rest. -/
def split (n : Nat) (text : List β) : Option (List β × List β) :=
  if text.length < n then none else some (text.take n, text.drop n)

theorem split_iff {n : Nat} {text front rest : List β} :
    split n text = some (front, rest) ↔ text = front ++ rest ∧ front.length = n := by
  unfold split
  constructor
  · intro h
    split at h
    · cases h
    · obtain ⟨rfl, rfl⟩ := Prod.mk.inj (Option.some.inj h)
      exact ⟨(List.take_append_drop n text).symm, by rw [List.length_take]; omega⟩
  · rintro ⟨rfl, rfl⟩
    rw [if_neg (by rw [List.length_append]; omega), List.take_left, List.drop_left]

/-- Values that are written as blocks of one width. -/
def block (n : Nat) (enc : α → List β) (dec : List β → Option α)
    (hlength : ∀ a, (enc a).length = n)
    (hdec : ∀ text a, text.length = n → (dec text = some a ↔ text = enc a)) : Layout β α where
  write := enc
  read text := (split n text).bind fun x => (dec x.1).map fun a => (a, x.2)
  read_iff text a rest := by
    constructor
    · intro h
      obtain ⟨⟨front, rest'⟩, hsplit, h⟩ := Option.bind_eq_some_iff.mp h
      obtain ⟨a', ha, heq⟩ := Option.map_eq_some_iff.mp h
      obtain ⟨rfl, rfl⟩ := Prod.mk.inj heq
      obtain ⟨rfl, hfront⟩ := split_iff.mp hsplit
      rw [(hdec front a' hfront).mp ha]
    · rintro rfl
      rw [split_iff.mpr ⟨rfl, hlength a⟩, Option.bind_some, (hdec _ a (hlength a)).mpr rfl]
      rfl

end Block

/-! ### One behind the other -/

section Pair

variable (W' : Layout β α')

/-- One value behind the other. -/
def pair : Layout β (α × α') where
  write x := W.write x.1 ++ W'.write x.2
  read text := (W.read text).bind fun x => (W'.read x.2).map fun y => ((x.1, y.1), y.2)
  read_iff text x rest := by
    constructor
    · intro h
      obtain ⟨⟨a, text'⟩, ha, h⟩ := Option.bind_eq_some_iff.mp h
      obtain ⟨⟨a', rest'⟩, ha', heq⟩ := Option.map_eq_some_iff.mp h
      obtain ⟨rfl, rfl⟩ := Prod.mk.inj heq
      rw [W.eq_of_read ha, W'.eq_of_read ha', List.append_assoc]
    · rintro rfl
      rw [List.append_assoc, W.read_write, Option.bind_some, W'.read_write]
      rfl

@[simp] theorem pair_write (x : α × α') : (W.pair W').write x = W.write x.1 ++ W'.write x.2 := rfl

/-- The same format, for values that correspond to those it has. -/
def as (e : α ≃ α') : Layout β α' where
  write a := W.write (e.symm a)
  read text := (W.read text).map fun x => (e x.1, x.2)
  read_iff text a rest := by
    constructor
    · intro h
      obtain ⟨⟨b, rest'⟩, hb, heq⟩ := Option.map_eq_some_iff.mp h
      obtain ⟨rfl, rfl⟩ := Prod.mk.inj heq
      rw [e.symm_apply_apply]
      exact W.eq_of_read hb
    · rintro rfl
      rw [W.read_write, Option.map_some, e.apply_symm_apply]

@[simp] theorem as_write (e : α ≃ α') (a : α') : (W.as e).write a = W.write (e.symm a) := rfl

end Pair

/-! ### Many -/

section Many

/-- So many values, one behind the other. -/
def readMany : Nat → List β → Option (List α × List β)
  | 0, text => some ([], text)
  | n + 1, text =>
    (W.read text).bind fun x => (readMany n x.2).map fun y => (x.1 :: y.1, y.2)

theorem readMany_iff {n : Nat} {text rest : List β} {as : List α} :
    W.readMany n text = some (as, rest) ↔ text = as.flatMap W.write ++ rest ∧ as.length = n := by
  induction n generalizing text as with
  | zero =>
    constructor
    · intro h
      obtain ⟨rfl, rfl⟩ := Prod.mk.inj (Option.some.inj h)
      exact ⟨rfl, rfl⟩
    · rintro ⟨rfl, hlength⟩
      rw [List.length_eq_zero_iff.mp hlength]
      rfl
  | succ n ih =>
    constructor
    · intro h
      obtain ⟨⟨a, text'⟩, ha, h⟩ := Option.bind_eq_some_iff.mp h
      obtain ⟨⟨as', rest'⟩, has, heq⟩ := Option.map_eq_some_iff.mp h
      obtain ⟨rfl, rfl⟩ := Prod.mk.inj heq
      obtain ⟨htext, hlength⟩ := ih.mp has
      dsimp only at htext
      refine ⟨?_, by rw [List.length_cons, hlength]⟩
      rw [W.eq_of_read ha, htext, List.flatMap_cons, List.append_assoc]
    · rintro ⟨rfl, hlength⟩
      cases as with
      | nil => cases hlength
      | cons a as =>
        have hrest := ih.mpr ⟨rfl, Nat.succ.inj hlength⟩
        unfold readMany
        rw [List.flatMap_cons, List.append_assoc, W.read_write, Option.bind_some, hrest]
        rfl

/-- A list behind its length, which is written by a format for the numbers below a bound. -/
def counted {N : Nat} (C : Layout β (Fin N)) : Layout β { as : List α // as.length < N } where
  write as := C.write ⟨as.val.length, as.property⟩ ++ as.val.flatMap W.write
  read text := (C.read text).bind fun c => (W.readMany c.1 c.2).bind fun x =>
    if h : x.1.length < N then some (⟨x.1, h⟩, x.2) else none
  read_iff text as rest := by
    constructor
    · intro h
      obtain ⟨⟨c, text'⟩, hc, h⟩ := Option.bind_eq_some_iff.mp h
      obtain ⟨⟨as', rest'⟩, hmany, hsome⟩ := Option.bind_eq_some_iff.mp h
      obtain ⟨rfl, hlength⟩ := W.readMany_iff.mp hmany
      dsimp only at hsome hlength
      split at hsome
      · rename_i hlt
        obtain ⟨rfl, rfl⟩ := Prod.mk.inj (Option.some.inj hsome)
        have hcount : c = ⟨as'.length, hlt⟩ := Fin.ext hlength.symm
        rw [C.eq_of_read hc, ← hcount, List.append_assoc]
      · cases hsome
    · rintro rfl
      rw [List.append_assoc, C.read_write, Option.bind_some, W.readMany_iff.mpr ⟨rfl, rfl⟩,
        Option.bind_some, dif_pos as.property]

theorem counted_write {N : Nat} (C : Layout β (Fin N)) (as : { as : List α // as.length < N }) :
    (W.counted C).write as =
      C.write ⟨as.val.length, as.property⟩ ++ as.val.flatMap W.write := rfl

theorem length_flatMap_write {n : Nat} (h : ∀ a, (W.write a).length = n) (as : List α) :
    (as.flatMap W.write).length = n * as.length := by
  induction as with
  | nil => rfl
  | cons a as ih =>
    rw [List.flatMap_cons, List.length_append, h, ih, List.length_cons, Nat.mul_succ, Nat.add_comm]

end Many

/-! ### As a codec -/

/-- What is read is at the front of the text, and what follows it is ignored. -/
def codec : Codec α (List β) where
  encode := W.write
  decode := W.front
  decode_encode _ := W.front_iff.mpr ⟨[], (List.append_nil _).symm⟩

/-- The only value at the front of a text that was written is the one that was written. -/
theorem codec_sized {size : α → Nat} (h : ∀ a, (W.write a).length = size a) :
    W.codec.Sized size where
  length := h
  truncated a n hn := by
    refine Option.eq_none_iff_forall_ne_some.mpr fun b hb => ?_
    obtain ⟨rest, hcut⟩ := W.front_iff.mp hb
    have hwhole : W.write a = W.write b ++ (rest ++ (W.write a).drop n) := by
      rw [← List.append_assoc, ← hcut]
      exact (List.take_append_drop n (W.write a)).symm
    have hread := W.read_write a []
    rw [List.append_nil, hwhole, W.read_write] at hread
    have hnil := congrArg List.length (Prod.mk.inj (Option.some.inj hread)).2
    rw [List.length_append, List.length_drop, h, List.length_nil] at hnil
    omega

end Layout
