import Mathlib.Data.Countable.Defs
import Mathlib.Data.List.Basic
import Mathlib.Logic.Function.Basic
/-!
# Hypercore.Lib.Codec

Lossless encodings, hashes without collisions, and lists cut into pieces.

A codec stands for a serializer whose text is not of interest, only that it reads back.
`Codec.through` fixes the text of one value, so that a codec can agree with a given
serializer on it, and `hashThrough` the digest of one text.
-/

universe u v w

/-- An encoding that reads back. -/
structure Codec (α : Type u) (β : Type v) where
  encode : α → β
  decode : β → Option α
  decode_encode : ∀ a, decode (encode a) = some a

namespace Codec

variable {α : Type u} {β : Type v}

/-- The length of every text is known, and a text that is cut is refused. -/
structure Sized (C : Codec α (List β)) (size : α → Nat) : Prop where
  length : ∀ a, (C.encode a).length = size a
  truncated : ∀ a n, n < size a → C.decode ((C.encode a).take n) = none

/-- A codec from an injection, reading by search. -/
noncomputable def ofInjective (f : α → β) (h : Function.Injective f) : Codec α β where
  encode := f
  decode := Function.partialInv f
  decode_encode a := Function.partialInv_left h a

/-- Countably many values can be written as lists. -/
noncomputable def ofCountable [Countable α] (b : β) : Codec α (List β) :=
  ofInjective (fun a => List.replicate ((Countable.exists_injective_nat α).choose a) b) <| by
    intro x y h
    have hlength := congrArg List.length h
    rw [List.length_replicate, List.length_replicate] at hlength
    exact (Countable.exists_injective_nat α).choose_spec hlength

section Through

variable [DecidableEq β]

/-- Exchange two texts. -/
def exchange (x y b : β) : β := if b = x then y else if b = y then x else b

theorem exchange_exchange (x y b : β) : exchange x y (exchange x y b) = b := by
  unfold exchange
  split_ifs <;> simp_all

/-- The codec that writes `a` as `b`. -/
def through (C : Codec α β) (a : α) (b : β) : Codec α β where
  encode x := exchange (C.encode a) b (C.encode x)
  decode y := C.decode (exchange (C.encode a) b y)
  decode_encode x := by rw [exchange_exchange, C.decode_encode]

theorem through_encode (C : Codec α β) (a : α) (b : β) : (C.through a b).encode a = b :=
  if_pos rfl

end Through

end Codec

/-! ### Symbolic hashes -/

section Hash

variable {β : Type v} [DecidableEq β] {text digest : List β}

/-- A hash that gives one text its digest, and every other text a longer symbol. -/
def hashThrough (text digest data : List β) : List β :=
  if data = text then digest else digest ++ digest ++ data

theorem hashThrough_injective (hpos : digest ≠ []) :
    Function.Injective (hashThrough text digest) := by
  have hlength := List.length_pos_iff.mpr hpos
  intro x y h
  unfold hashThrough at h
  split at h
  · next hx =>
    split at h
    · next hy => rw [hx, hy]
    · have hcount := congrArg List.length h
      rw [List.length_append, List.length_append] at hcount
      omega
  · split at h
    · have hcount := congrArg List.length h
      rw [List.length_append, List.length_append] at hcount
      omega
    · exact List.append_cancel_left h

end Hash

namespace List

variable {α : Type u}

/-- A monadic map depends on what is done to the items of the list only. -/
theorem mapM_congr_left {M : Type u → Type v} [Monad M] [LawfulMonad M] {β : Type u}
    {f g : α → M β} {l : List α} (h : ∀ a ∈ l, f a = g a) : l.mapM f = l.mapM g := by
  induction l with
  | nil => rfl
  | cons a l ih =>
    rw [mapM_cons, mapM_cons, h a (.head _), ih fun b hb => h b (.tail _ hb)]

/-- The `i`-th piece of a list that is cut into pieces of one width. -/
def piece (l : List α) (width i : Nat) : List α := (l.drop (i * width)).take width

/-- **Reassembly.** The first pieces, put together, are a prefix of the list. -/
theorem flatten_pieces (l : List α) (width n : Nat) :
    ((range n).map (l.piece width)).flatten = l.take (n * width) := by
  induction n with
  | zero => simp
  | succ n ih =>
    have hpiece : l.piece width n = (l.drop (n * width)).take width := rfl
    rw [range_succ, map_append, flatten_append, ih, map_singleton, flatten_singleton, hpiece,
      Nat.succ_mul, take_add]

/-- **Blocks of one width.** What is put together from them determines them, and what they
determine. -/
theorem map_eq_of_flatMap_eq {β : Type v} {γ : Type w} {f : α → List β} {g : α → γ} {width : Nat}
    {l l' : List α} (hpos : 0 < width) (hl : ∀ a ∈ l, (f a).length = width)
    (hl' : ∀ a ∈ l', (f a).length = width) (hg : ∀ a ∈ l, ∀ b ∈ l', f a = f b → g a = g b)
    (h : l.flatMap f = l'.flatMap f) : l.map g = l'.map g := by
  have hne : ∀ a, (f a).length = width → f a ≠ [] := by
    intro a hlen hnil
    rw [hnil, length_nil] at hlen
    omega
  induction l generalizing l' with
  | nil =>
    cases l' with
    | nil => rfl
    | cons b l' => exact absurd (append_eq_nil_iff.mp h.symm).1 (hne b (hl' b (.head _)))
  | cons a l ih =>
    have ha := hl a (.head _)
    cases l' with
    | nil => exact absurd (append_eq_nil_iff.mp h).1 (hne a ha)
    | cons b l' =>
      rw [flatMap_cons, flatMap_cons] at h
      obtain ⟨hhead, htail⟩ := append_inj h (ha.trans (hl' b (.head _)).symm)
      have hrest := ih (fun c hc => hl c (.tail _ hc)) (fun c hc => hl' c (.tail _ hc))
        (fun c hc d hd => hg c (.tail _ hc) d (.tail _ hd)) htail
      rw [map_cons, map_cons, hg a (.head _) b (.head _) hhead, hrest]

end List
