import Mathlib.Algebra.BigOperators.Group.Finset.Basic
import Mathlib.Algebra.Order.BigOperators.Group.Finset
import Mathlib.Data.Fintype.BigOperators
import Mathlib.Tactic.Ring
/-!
# Hypercore.Lib.Transfers

Lists of value transfers between accounts, and what they do to the balances.

A transfer without a target burns its amount. Over any finite type of accounts the
net amounts of a list sum to what it burns, taken negative.
-/

/-- A transfer of value. -/
structure Transfer (α : Type) where
  source : α
  /-- `none` burns the amount. -/
  target : Option α
  amount : Nat
  deriving DecidableEq, Repr

namespace Transfer

variable {α : Type}

/-- The amount a transfer burns. -/
def burn (t : Transfer α) : Nat :=
  match t.target with
  | none => t.amount
  | some _ => 0

/-- The amount a list of transfers burns. -/
def burned (l : List (Transfer α)) : Nat := (l.map burn).sum

@[simp] theorem burned_nil : burned ([] : List (Transfer α)) = 0 := rfl

@[simp] theorem burned_cons (t : Transfer α) (l : List (Transfer α)) :
    burned (t :: l) = t.burn + burned l := by
  simp [burned]

variable [DecidableEq α]

/-- What one transfer does to an account. -/
def delta (t : Transfer α) (a : α) : Int :=
  (if t.target = some a then (t.amount : Int) else 0) -
    if t.source = a then (t.amount : Int) else 0

/-- What a list of transfers does to an account. -/
def net (l : List (Transfer α)) (a : α) : Int := (l.map fun t => t.delta a).sum

@[simp] theorem net_nil (a : α) : net [] a = 0 := rfl

@[simp] theorem net_cons (t : Transfer α) (l : List (Transfer α)) (a : α) :
    net (t :: l) a = t.delta a + net l a := by
  simp [net]

variable [Fintype α]

theorem sum_delta (t : Transfer α) : ∑ a, t.delta a = -(t.burn : Int) := by
  unfold delta burn
  rw [Finset.sum_sub_distrib, Finset.sum_ite_eq Finset.univ t.source]
  cases t.target with
  | none => simp
  | some b =>
    simp only [Option.some.injEq]
    rw [Finset.sum_ite_eq Finset.univ b]
    simp

/-- **Conservation.** What the accounts lose in total is what is burned. -/
theorem sum_net (l : List (Transfer α)) : ∑ a, net l a = -(burned l : Int) := by
  induction l with
  | nil => simp
  | cons t l ih =>
    simp only [net_cons, burned_cons]
    rw [Finset.sum_add_distrib, sum_delta, ih]
    push_cast
    ring

end Transfer
