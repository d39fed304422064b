import Hypercore.Lib.Exec
import Mathlib.Algebra.Order.Group.Unbundled.Int
import Mathlib.Algebra.Order.Ring.Abs
import Mathlib.Tactic.Linarith
import Mathlib.Tactic.NormNum
import Mathlib.Tactic.Ring
/-!
# Hypercore.Lib.Int128

Machine integers: `i128` and `u64` arithmetic that traps, the casts between
`i128` and `u128`, and division that truncates toward zero.

An arithmetic result outside its type halts (`i128`, `u64`). `x / y` of the
machine is `Int.tdiv` and `x % y` is `Int.tmod`; the second half of the file
bounds how far truncation moves a quotient.
-/

namespace Int128

open Exec

-- Named for each width, so that terms do not carry a proof that the width is positive.
instance neZeroPow64 : NeZero (2 ^ 64 : Nat) := ⟨by decide⟩
instance neZeroPow160 : NeZero (2 ^ 160 : Nat) := ⟨by decide⟩
instance neZeroPow256 : NeZero (2 ^ 256 : Nat) := ⟨by decide⟩

/-- `v` is the value of some `i128`. -/
def InRange (v : Int) : Prop := -2 ^ 127 ≤ v ∧ v < 2 ^ 127

instance (v : Int) : Decidable (InRange v) := inferInstanceAs (Decidable (_ ∧ _))

/-- The result of an `i128` operation whose exact value is `v`. -/
def i128 (v : Int) : Exec Int := if InRange v then .ok v else .error .panic

/-- The result of a `u64` addition whose exact value is `n`. -/
def u64 (n : Nat) : Exec Nat := if n < 2 ^ 64 then .ok n else .error .panic

@[simp] theorem i128_eq_ok {v w : Int} : i128 v = .ok w ↔ InRange v ∧ v = w := by
  unfold i128
  split <;> simp_all

@[simp] theorem u64_eq_ok {n m : Nat} : u64 n = .ok m ↔ n < 2 ^ 64 ∧ n = m := by
  unfold u64
  split <;> simp_all

/-! ### Casts -/

/-- `v as u128` for an `i128`. -/
def toU128 (v : Int) : Nat := (v % 2 ^ 128).toNat

/-- `n as i128` for a `u128`. -/
def ofU128 (n : Nat) : Int := if n < 2 ^ 127 then n else (n : Int) - 2 ^ 128

/-- Casting to `u128` and back is the identity. -/
theorem ofU128_toU128 {v : Int} (h : InRange v) : ofU128 (toU128 v) = v := by
  unfold ofU128 toU128
  obtain ⟨hlo, hhi⟩ := h
  split <;> omega

theorem toU128_of_nonneg {v : Int} (h0 : 0 ≤ v) (h : InRange v) : (toU128 v : Int) = v := by
  unfold toU128
  obtain ⟨hlo, hhi⟩ := h
  omega

/-! ### Truncating division -/

/-- Quotient and remainder: the remainder has the sign of the dividend. -/
theorem tdiv_spec {x d : Int} (hd : 0 < d) :
    ∃ r, x = d * x.tdiv d + r ∧ (0 ≤ x → 0 ≤ r) ∧ (x ≤ 0 → r ≤ 0) ∧ -d < r ∧ r < d := by
  refine ⟨x.tmod d, (Int.mul_tdiv_add_tmod x d).symm, fun hx => Int.tmod_nonneg d hx, ?_,
    Int.lt_tmod_of_pos x hd, Int.tmod_lt_of_pos x hd⟩
  intro hx
  have h := Int.tmod_nonneg d (a := -x) (by omega)
  rw [Int.neg_tmod] at h
  omega

/-- Truncation never moves a quotient away from zero. -/
theorem natAbs_tdiv_le (x : Int) (d : Int) : (x.tdiv d).natAbs ≤ x.natAbs := by
  rw [Int.natAbs_tdiv]
  exact Nat.div_le_self _ _

/-- Truncating a sum or its summands differs by at most one. -/
theorem tdiv_add_near {a b d : Int} (hd : 0 < d) :
    |(a + b).tdiv d - (a.tdiv d + b.tdiv d)| ≤ 1 := by
  obtain ⟨r, hr, hr0, hr1, hrlo, hrhi⟩ := tdiv_spec (x := a) hd
  obtain ⟨s, hs, hs0, hs1, hslo, hshi⟩ := tdiv_spec (x := b) hd
  obtain ⟨t, ht, ht0, ht1, htlo, hthi⟩ := tdiv_spec (x := a + b) hd
  set p := a.tdiv d
  set q := b.tdiv d
  set w := (a + b).tdiv d
  have hkey : d * (w - (p + q)) = r + s - t := by rw [mul_sub, mul_add]; omega
  rw [abs_le]
  constructor
  · by_contra hlt
    have hw : w - (p + q) ≤ -2 := by omega
    have hm : d * (w - (p + q)) ≤ d * (-2) := by gcongr
    rcases le_or_gt 0 (a + b) with hab | hab
    · have := ht0 hab
      rcases le_or_gt 0 a with ha | ha
      · have := hr0 ha
        omega
      · have := hs0 (by omega)
        omega
    · have := ht1 hab.le
      rcases le_or_gt 0 a with ha | ha
      · have := hr0 ha
        omega
      · have := hr1 ha.le
        omega
  · by_contra hlt
    have hw : 2 ≤ w - (p + q) := by omega
    have hm : d * 2 ≤ d * (w - (p + q)) := by gcongr
    rcases le_or_gt 0 (a + b) with hab | hab
    · have := ht0 hab
      omega
    · have := ht1 hab.le
      rcases le_or_gt 0 a with ha | ha
      · have := hs1 (by omega)
        omega
      · have := hr1 ha.le
        omega

/-- Truncating twice is truncating once. -/
theorem tdiv_tdiv {x c d : Int} (hc : 0 ≤ c) :
    (x.tdiv c).tdiv d = x.tdiv (c * d) := by
  have hnonneg : ∀ {y : Int}, 0 ≤ y → (y.tdiv c).tdiv d = y.tdiv (c * d) := by
    intro y hy
    rw [Int.tdiv_eq_ediv_of_nonneg hy, Int.tdiv_eq_ediv_of_nonneg (Int.ediv_nonneg hy hc),
      Int.tdiv_eq_ediv_of_nonneg hy, Int.ediv_ediv_of_nonneg hc]
  rcases le_total 0 x with hx | hx
  · exact hnonneg hx
  · have hneg := hnonneg (y := -x) (by omega)
    rw [Int.neg_tdiv, Int.neg_tdiv, Int.neg_tdiv] at hneg
    omega

/-- Truncating every term moves a sum by less than one unit for each term. -/
theorem sum_tdiv_near {d : Int} (hd : 0 < d) (l : List Int) :
    |d * (l.map (·.tdiv d)).sum - l.sum| ≤ d * l.length := by
  induction l with
  | nil => simp
  | cons x l ih =>
    obtain ⟨r, hr, -, -, hlo, hhi⟩ := tdiv_spec (x := x) hd
    have hsplit : d * ((x :: l).map (·.tdiv d)).sum - (x :: l).sum =
        (d * (l.map (·.tdiv d)).sum - l.sum) + (d * x.tdiv d - x) := by
      simp only [List.map_cons, List.sum_cons]
      ring
    have hterm : |d * x.tdiv d - x| ≤ d := by
      rw [abs_le]
      constructor <;> omega
    rw [hsplit]
    calc |(d * (l.map (·.tdiv d)).sum - l.sum) + (d * x.tdiv d - x)|
        ≤ |d * (l.map (·.tdiv d)).sum - l.sum| + |d * x.tdiv d - x| := abs_add_le _ _
      _ ≤ d * l.length + d := add_le_add ih hterm
      _ = d * (x :: l).length := by
        push_cast [List.length_cons]
        ring

/-- Truncated terms of a sum that is zero add up to at most their number. -/
theorem abs_sum_tdiv_le {d : Int} (hd : 0 < d) {l : List Int} (h : l.sum = 0) :
    |(l.map (·.tdiv d)).sum| ≤ l.length := by
  have hnear := sum_tdiv_near hd l
  rw [h, sub_zero, abs_mul, abs_of_pos hd] at hnear
  exact le_of_mul_le_mul_left hnear hd

end Int128
