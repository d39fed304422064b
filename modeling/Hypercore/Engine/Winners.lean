import Hypercore.Engine.Deleverage
import Hypercore.Engine.OpenInterest
import Hypercore.Engine.LiquidationValue
import Mathlib.Algebra.BigOperators.Group.Finset.Basic
/-!
# Hypercore.Engine.Winners

Whom auto-deleverage closes.

Candidates are ranked by profit. As each of them is visited once, the walk over the
ranking can be read off the state before it (`reached`): a candidate is closed with the
deficit that those before it left. What is closed never exceeds the deficit and no
position grows or changes side. That the closed positions belong to others and are on the
other side is not asked for.
-/

namespace Hypercore

open Exec Int128 Position

namespace Engine

open EngineState

/-! ### The size closed of one position -/

/-- Notional of a raw size at a price, in micro-USDC. -/
def usdcAt (size : Int) (price : Decimal) : Int :=
  toUsdc ((size * price.value).tdiv (10 ^ price.decimals))

theorem usdcAt_eq_tdiv (size : Int) (price : Decimal) :
    usdcAt size price = (size * price.value).tdiv (10 ^ price.decimals * 100) := by
  unfold usdcAt toUsdc
  exact tdiv_tdiv (by positivity)

/-- **Shares round down.** When `x` is at most the share `q / n` of `X`, with `n` the
truncated notional of `X`, the truncated notional of `x` is at most `q`. -/
theorem tdiv_share_le {x X P S q : Int} (hx : 0 ≤ x) (hX : 0 ≤ X) (hS : 0 < S) (hq : 0 < q)
    (hqn : q ≤ (X * P).tdiv S) (hshare : x * (X * P).tdiv S ≤ X * q) :
    (x * P).tdiv S ≤ q := by
  obtain ⟨r, hwhole, -, -, hlo, hhi⟩ := tdiv_spec (x := X * P) hS
  obtain ⟨r', hpart, hr', -, -, -⟩ := tdiv_spec (x := x * P) hS
  generalize (X * P).tdiv S = n at *
  generalize (x * P).tdiv S = t at *
  have hn : 0 < n := by omega
  have hP : 0 < P := by
    have hSn : S * 1 ≤ S * n := mul_le_mul_of_nonneg_left (by omega) hS.le
    by_contra hneg
    have hXP := mul_nonpos_of_nonneg_of_nonpos hX (not_lt.mp hneg)
    linarith
  replace hr' := hr' (mul_nonneg hx hP.le)
  by_contra hover
  -- a unit of notional more than `q` would be more than the share
  have hfull : S * (q + 1) ≤ x * P := by
    have := mul_le_mul_of_nonneg_left (show q + 1 ≤ t by omega) hS.le
    linarith
  have hchain : S * (q + 1) * n < q * (S * n + S) :=
    calc S * (q + 1) * n ≤ x * P * n := mul_le_mul_of_nonneg_right hfull hn.le
      _ = x * n * P := by ring
      _ ≤ X * q * P := mul_le_mul_of_nonneg_right hshare hP.le
      _ = q * (X * P) := by ring
      _ < q * (S * n + S) := mul_lt_mul_of_pos_left (by linarith) hq
  have hlt : S * n < S * q := by linarith
  exact absurd (lt_of_mul_lt_mul_left hlt hS.le) (by omega)

section AdlSize

variable {p : Position} {price : Decimal} {d : Int}

/-- The part of a notional that a deficit takes, on six places. -/
theorem adlRatio_bounds {n : Int} (hd : 0 < d) (hn : n ≠ 0) :
    0 ≤ (min d n * 10 ^ 6).tdiv n ∧ (min d n * 10 ^ 6).tdiv n ≤ 10 ^ 6 ∧
      (0 < n → (min d n * 10 ^ 6).tdiv n * n ≤ min d n * 10 ^ 6) := by
  rcases lt_or_gt_of_ne hn with hneg | hpos
  · have hmin : min d n = n := by omega
    rw [hmin, Int.mul_tdiv_cancel_left _ hn]
    exact ⟨by norm_num, le_refl _, fun h => by omega⟩
  · have hmin : 0 < min d n := by omega
    rw [Int.tdiv_eq_ediv_of_nonneg (by positivity)]
    refine ⟨by positivity, ?_, fun _ => Int.ediv_mul_le _ hn⟩
    refine Int.ediv_le_of_le_mul hpos ?_
    have := min_le_right d n
    linarith

theorem adlSize_eq (h : adlSize p price d ≠ 0) :
    0 < d ∧ usdcNotional p price ≠ 0 ∧ adlSize p price d =
      |p.size.value| * (min d (usdcNotional p price) * 10 ^ 6).tdiv (usdcNotional p price) /
        10 ^ 6 := by
  unfold adlSize at h ⊢
  dsimp only at h ⊢
  split at h
  · exact absurd rfl h
  · rename_i hsome
    rw [if_neg hsome]
    have hd : 0 < d := by
      by_contra hle
      exact hsome (.inl (by omega))
    have hn : usdcNotional p price ≠ 0 := fun hz => hsome (.inr (.inr hz))
    have hratio := (adlRatio_bounds hd hn).1
    refine ⟨hd, hn, ?_⟩
    rw [Int.tdiv_eq_ediv_of_nonneg (by positivity), ← Int.mul_assoc,
      show (10 : Int) ^ 8 = 10 ^ 2 * 10 ^ 6 by norm_num, Int.mul_comm _ (10 ^ 2),
      Int.mul_ediv_mul_of_pos _ _ (by norm_num)]

/-- The size closed is a part of the position. -/
theorem adlSize_bounds (p : Position) (price : Decimal) (d : Int) :
    0 ≤ adlSize p price d ∧ adlSize p price d ≤ |p.size.value| := by
  by_cases hzero : adlSize p price d = 0
  · exact ⟨hzero.ge, hzero.le.trans (abs_nonneg _)⟩
  · obtain ⟨hd, hn, heq⟩ := adlSize_eq hzero
    obtain ⟨h0, h1, -⟩ := adlRatio_bounds hd hn
    rw [heq]
    refine ⟨by positivity, Int.ediv_le_of_le_mul (by norm_num) ?_⟩
    exact mul_le_mul_of_nonneg_left h1 (abs_nonneg _)

/-- The notional closed is at most the deficit, and the notional of the position. -/
theorem usdcAt_adlSize (h : adlSize p price d ≠ 0) :
    usdcAt (adlSize p price d) price ≤ min d (usdcNotional p price) := by
  obtain ⟨hd, hn, heq⟩ := adlSize_eq h
  have hsize := adlSize_bounds p price d
  obtain ⟨-, -, hratio⟩ := adlRatio_bounds hd hn
  have hnotional : usdcNotional p price = usdcAt |p.size.value| price := rfl
  rw [hnotional] at hn hratio heq ⊢
  have hscale : (0 : Int) < 10 ^ price.decimals * 100 := by positivity
  rcases lt_or_gt_of_ne hn with hneg | hpos
  · -- a negative notional is closed whole
    have hmin : min d (usdcAt |p.size.value| price) = usdcAt |p.size.value| price := by omega
    rw [heq, hmin, Int.mul_tdiv_cancel_left _ hn, Int.mul_ediv_cancel _ (by norm_num)]
  · replace hratio := hratio hpos
    have hpart : adlSize p price d * 10 ^ 6 ≤ |p.size.value| *
        (min d (usdcAt |p.size.value| price) * 10 ^ 6).tdiv (usdcAt |p.size.value| price) := by
      rw [heq]
      exact Int.ediv_mul_le _ (by norm_num)
    have hshare : adlSize p price d * usdcAt |p.size.value| price ≤
        |p.size.value| * min d (usdcAt |p.size.value| price) := by
      have h1 := mul_le_mul_of_nonneg_right hpart hpos.le
      have h2 := mul_le_mul_of_nonneg_left hratio (abs_nonneg p.size.value)
      linarith
    have hmin : 0 < min d (usdcAt |p.size.value| price) := lt_min hd hpos
    have hle := min_le_right d (usdcAt |p.size.value| price)
    generalize min d (usdcAt |p.size.value| price) = q at *
    rw [usdcAt_eq_tdiv] at hle hshare ⊢
    exact tdiv_share_le hsize.1 (abs_nonneg _) hscale hmin hle hshare

end AdlSize

/-! ### The walk over the ranking -/

/-- A position that auto-deleverage closes a part of, and the deficit left by then. -/
structure Reached where
  account : AccountAddress
  position : Position
  deficit : Int
  deriving DecidableEq, Repr

/-- The positions that a ranking of accounts closes parts of, for a deficit. -/
def reached (s : EngineState) (m : MarketId) (price : Decimal) :
    Int → List AccountAddress → List Reached
  | _, [] => []
  | d, a :: as =>
    match s.getPosition a m with
    | none => reached s m price d as
    | some p =>
      if adlSize p price d = 0 then reached s m price d as
      else ⟨a, p, d⟩ :: reached s m price (d - min d (usdcNotional p price)) as

section Walk

variable {s s' : EngineState} {e e' : Engine} {m : MarketId} {price deficit : Decimal}
  {a b : AccountAddress}

theorem reached_congr {as : List AccountAddress} (d : Int)
    (h : ∀ a ∈ as, s'.getPosition a m = s.getPosition a m) :
    reached s' m price d as = reached s m price d as := by
  induction as generalizing d with
  | nil => rfl
  | cons a as ih =>
    have hrest : ∀ d, reached s' m price d as = reached s m price d as :=
      fun d => ih d fun b hb => h b (.tail _ hb)
    unfold reached
    rw [h a (.head _)]
    cases s.getPosition a m with
    | none => exact hrest d
    | some p =>
      dsimp only
      rw [hrest, hrest]

theorem reached_accounts (s : EngineState) (m : MarketId) (price : Decimal) (d : Int)
    (as : List AccountAddress) : ((reached s m price d as).map (·.account)).Sublist as := by
  induction as generalizing d with
  | nil => exact .slnil
  | cons a as ih =>
    unfold reached
    cases s.getPosition a m with
    | none => exact (ih d).cons a
    | some p =>
      dsimp only
      split
      · exact (ih d).cons a
      · exact (ih _).cons_cons a

theorem mem_reached {as : List AccountAddress} {d : Int} {r : Reached}
    (h : r ∈ reached s m price d as) :
    s.getPosition r.account m = some r.position ∧ adlSize r.position price r.deficit ≠ 0 := by
  induction as generalizing d with
  | nil => exact absurd h List.not_mem_nil
  | cons a as ih =>
    unfold reached at h
    cases hp : s.getPosition a m with
    | none =>
      rw [hp] at h
      exact ih h
    | some p =>
      rw [hp] at h
      dsimp only at h
      split at h
      · exact ih h
      · rename_i hne
        rcases List.mem_cons.mp h with rfl | h
        · exact ⟨hp, hne⟩
        · exact ih h

/-- **The walk covers at most the deficit.** -/
theorem reached_covers (as : List AccountAddress) {d : Int} (hd : 0 ≤ d) :
    ((reached s m price d as).map fun r =>
      usdcAt (adlSize r.position price r.deficit) price).sum ≤ d := by
  induction as generalizing d with
  | nil => exact hd
  | cons a as ih =>
    unfold reached
    cases s.getPosition a m with
    | none => exact ih hd
    | some p =>
      dsimp only
      split
      · exact ih hd
      · rename_i hne
        have hone := usdcAt_adlSize hne
        have hrest := ih (d := d - min d (usdcNotional p price)) (by omega)
        rw [List.map_cons, List.sum_cons]
        dsimp only
        omega

variable {cs : List (AccountAddress × Decimal)} {ord : HashOrder}

/-- **Run lemma.** The positions reached are closed in part, all others are as before. -/
theorem deleverage_run {d d' : Decimal} (hwf : PositionsWF s) (hd : d.decimals = 6)
    (hnodup : (cs.map Prod.fst).Nodup) (h : cs.foldlM (deleverage m price) (s, d) = .ok (s', d')) :
    (∀ r ∈ reached s m price d.value (cs.map Prod.fst),
      ∃ p', r.position.applyFill ⟨adlSize r.position price r.deficit, 8⟩ price
          r.position.isShort = .ok p' ∧ s'.getPosition r.account m = some p') ∧
    ∀ b k, (k = m → b ∉ (reached s m price d.value (cs.map Prod.fst)).map (·.account)) →
      s'.getPosition b k = s.getPosition b k := by
  induction cs generalizing s d with
  | nil =>
    obtain ⟨rfl, -⟩ := Prod.mk.inj (foldlM_nil_eq_ok.mp h)
    exact ⟨fun r hr => absurd hr List.not_mem_nil, fun _ _ _ => rfl⟩
  | cons c cs ih =>
    obtain ⟨⟨s₁, d₁⟩, h1, hrest⟩ := foldlM_cons_eq_ok.mp h
    obtain ⟨hc, hnodup⟩ := List.nodup_cons.mp hnodup
    rw [List.map_cons]
    unfold reached
    rcases deleverage_cases hwf hd h1 with
      ⟨rfl, rfl, hpassed⟩ | ⟨p, p', hp, hne, hfill, rfl, rfl⟩
    · cases hp : s₁.getPosition c.1 m with
      | none => exact ih hwf hd hnodup hrest
      | some p =>
        dsimp only
        rw [if_pos (hpassed p hp)]
        exact ih hwf hd hnodup hrest
    · have hwrite : PosWrites s (s.setPosition c.1 m p') :=
        .single (.filled c.1 m p p' _ _ _ hp rfl hfill rfl)
      have hothers : ∀ a ∈ cs.map Prod.fst,
          (s.setPosition c.1 m p').getPosition a m = s.getPosition a m := by
        intro a ha
        rw [getPosition_setPosition, if_neg]
        rintro ⟨rfl, -⟩
        exact hc ha
      obtain ⟨hclosed, hkept⟩ := ih (hwrite.wf hwf) rfl hnodup hrest
      simp only [reached_congr _ hothers] at hclosed hkept
      rw [hp]
      dsimp only
      rw [if_neg hne]
      constructor
      · intro r hr
        rcases List.mem_cons.mp hr with rfl | hr
        · refine ⟨p', hfill, ?_⟩
          rw [hkept c.1 m fun _ hin => hc ((reached_accounts _ _ _ _ _).subset hin),
            getPosition_setPosition, if_pos ⟨rfl, rfl⟩]
        · exact hclosed r hr
      · intro b k hb
        rw [List.map_cons] at hb
        rw [hkept b k fun hk hin => hb hk (.tail _ hin), getPosition_setPosition, if_neg]
        rintro ⟨rfl, rfl⟩
        exact hb rfl (.head _)

/-! ### The ranking -/

/-- **The ranking visits an account at most once**, and only accounts with positions. -/
theorem adlCandidates_accounts (h : adlCandidates ord e m = .ok cs) : (cs.map Prod.fst).Nodup ∧
      ∀ a ∈ cs.map Prod.fst, a ∈ e.state.positions.toList.map Prod.fst := by
  obtain ⟨scored, hscored, h⟩ := bind_inv h
  obtain rfl := pure_inv h
  have hsub := filterMapM_keys (fun x y hxy => ?_) hscored
  · have hperm := (List.perm_insertionSort (fun a b : AccountAddress × Decimal =>
      b.2.value ≤ a.2.value) scored).map Prod.fst
    have hvisit := (ord.perm e.state.positions.toList).map Prod.fst
    refine ⟨hperm.nodup_iff.mpr (hsub.nodup (hvisit.nodup_iff.mpr (FinMap.nodup_keys _))), ?_⟩
    intro a ha
    exact hvisit.mem_iff.mp (hsub.subset (hperm.mem_iff.mp ha))
  · obtain ⟨a, ps⟩ := x
    dsimp only at hxy
    split at hxy
    · split at hxy
      · cases pure_inv hxy
      · obtain ⟨score, -, hxy⟩ := bind_inv hxy
        split at hxy
        · cases pure_inv hxy
          rfl
        · cases pure_inv hxy
    · cases pure_inv hxy

/-! ### The contract -/

/-- Notional at a price of what the positions of a market have lost in size, in
micro-USDC. -/
def closedNotional (s s' : EngineState) (m : MarketId) (price : Decimal) : Int :=
  (s.positions.toList.map fun x => usdcAt (|s.sizeAt x.1 m| - |s'.sizeAt x.1 m|) price).sum

/-- The positions of two accounts in a market are on opposite sides. -/
def Opposite (s : EngineState) (a b : AccountAddress) (m : MarketId) : Prop :=
  s.sizeAt a m * s.sizeAt b m < 0

/-- **What auto-deleverage is for**, when the position of `a` leaves a deficit. -/
structure WinnersOnly (s s' : EngineState) (a : AccountAddress) (m : MarketId) (price : Decimal)
    (deficit : Int) : Prop where
  frame : ∃ positions, s' = { s with positions }
  market : ∀ b k, k ≠ m → s'.getPosition b k = s.getPosition b k
  winners : ∀ b, s'.getPosition b m ≠ s.getPosition b m → b ≠ a ∧ Opposite s a b m
  shrinks : ∀ b, |s'.sizeAt b m| ≤ |s.sizeAt b m| ∧ 0 ≤ s'.sizeAt b m * s.sizeAt b m
  covered : closedNotional s s' m price ≤ deficit

/-- Every position that the ranking reaches is another account's and on the other side. -/
def ReachesWinners (ord : HashOrder) (e : Engine) (a : AccountAddress) (m : MarketId)
    (price : Decimal) (deficit : Int) : Prop :=
  ∀ cs, adlCandidates ord e m = .ok cs →
    ∀ r ∈ reached e.state m price deficit (cs.map Prod.fst),
      r.account ≠ a ∧ Opposite e.state a r.account m

/-- A fill against the side of a position moves its size towards zero. -/
theorem applyFill_towards {p p' : Position} {x : Int} (hx : 0 ≤ x ∧ x ≤ |p.size.value|)
    (h : p.applyFill ⟨x, 8⟩ price p.isShort = .ok p') :
    |p'.size.value| = |p.size.value| - x ∧ 0 ≤ p'.size.value * p.size.value := by
  rw [applyFill_size h]
  dsimp only
  cases hshort : p.isShort with
  | true =>
    have hneg : p.size.value < 0 := by simpa [isShort] using hshort
    rw [if_pos rfl]
    rw [abs_of_neg hneg] at hx ⊢
    exact ⟨by rw [abs_of_nonpos (by omega)]; omega,
      mul_nonneg_of_nonpos_of_nonpos (by omega) hneg.le⟩
  | false =>
    have hpos : 0 ≤ p.size.value := by simpa [isShort] using hshort
    rw [if_neg (by simp)]
    rw [abs_of_nonneg hpos] at hx ⊢
    exact ⟨by rw [abs_of_nonneg (by omega)]; omega, mul_nonneg (by omega) hpos⟩

theorem sizeAt_of_position {p : Position} (h : s.getPosition a m = some p) :
    s.sizeAt a m = p.size.value := by
  unfold sizeAt
  rw [h]
  rfl

theorem sizeAt_congr (h : s'.getPosition a m = s.getPosition a m) :
    s'.sizeAt a m = s.sizeAt a m := by
  unfold sizeAt
  rw [h]

/-- **Auto-deleverage, read off the state before.** -/
theorem triggerAdl_run (hwf : PositionsWF e.state) (hd : deficit.decimals = 6)
    (hranked : adlCandidates ord e m = .ok cs) (h : triggerAdl ord e m deficit price = .ok e') :
    (∀ r ∈ reached e.state m price deficit.value (cs.map Prod.fst),
      ∃ p', r.position.applyFill ⟨adlSize r.position price r.deficit, 8⟩ price
          r.position.isShort = .ok p' ∧ e'.state.getPosition r.account m = some p') ∧
    ∀ b k, (k = m →
        b ∉ (reached e.state m price deficit.value (cs.map Prod.fst)).map (·.account)) →
      e'.state.getPosition b k = e.state.getPosition b k := by
  obtain ⟨cs', hcs', h⟩ := bind_inv h
  obtain rfl := ok_unique hcs' hranked
  obtain ⟨⟨s', d'⟩, hfold, h⟩ := bind_inv h
  obtain rfl := pure_inv h
  exact deleverage_run hwf hd (adlCandidates_accounts hranked).1 hfold

/-- A position reached has lost the size closed, towards zero. -/
theorem triggerAdl_reached (hwf : PositionsWF e.state) (hd : deficit.decimals = 6)
    (hranked : adlCandidates ord e m = .ok cs) (h : triggerAdl ord e m deficit price = .ok e') :
    ∀ r ∈ reached e.state m price deficit.value (cs.map Prod.fst),
      e'.state.getPosition r.account m ≠ e.state.getPosition r.account m ∧
      |e'.state.sizeAt r.account m| =
        |e.state.sizeAt r.account m| - adlSize r.position price r.deficit ∧
      0 ≤ e'.state.sizeAt r.account m * e.state.sizeAt r.account m := by
  intro r hr
  obtain ⟨p', hfill, hp'⟩ := (triggerAdl_run hwf hd hranked h).1 r hr
  obtain ⟨hp, hne⟩ := mem_reached hr
  obtain ⟨hsize, hside⟩ := applyFill_towards (adlSize_bounds _ _ _) hfill
  rw [sizeAt_of_position hp, sizeAt_of_position hp', hp, hp']
  refine ⟨fun heq => ?_, hsize, hside⟩
  obtain rfl := Option.some.inj heq
  exact hne (by omega)

/-- The notional that positions lose is the notional of what is closed of those reached. -/
theorem closedNotional_eq (hwf : PositionsWF e.state) (hd : deficit.decimals = 6)
    (hranked : adlCandidates ord e m = .ok cs) (h : triggerAdl ord e m deficit price = .ok e') :
    closedNotional e.state e'.state m price =
      ((reached e.state m price deficit.value (cs.map Prod.fst)).map fun r =>
        usdcAt (adlSize r.position price r.deficit) price).sum := by
  have hclosed := triggerAdl_reached hwf hd hranked h
  have hkept := (triggerAdl_run hwf hd hranked h).2
  obtain ⟨hnodup, hheld⟩ := adlCandidates_accounts hranked
  have hsub := reached_accounts e.state m price deficit.value (cs.map Prod.fst)
  generalize reached e.state m price deficit.value (cs.map Prod.fst) = rs at *
  let f : AccountAddress → Int := fun b =>
    usdcAt (|e.state.sizeAt b m| - |e'.state.sizeAt b m|) price
  have hzero : ∀ b, b ∉ rs.map (·.account) → f b = 0 := by
    intro b hb
    have hsame := sizeAt_congr (hkept b m fun _ => hb)
    simp only [f, hsame, sub_self, usdcAt, Int.zero_mul, Int.zero_tdiv]
    rfl
  have hkeys : (e.state.positions.toList.map Prod.fst).Nodup := FinMap.nodup_keys _
  calc closedNotional e.state e'.state m price
      = ((e.state.positions.toList.map Prod.fst).map f).sum := by
        unfold closedNotional
        rw [List.map_map]
        rfl
    _ = ∑ b ∈ (e.state.positions.toList.map Prod.fst).toFinset, f b :=
        (List.sum_toFinset f hkeys).symm
    _ = ∑ b ∈ (rs.map (·.account)).toFinset, f b := by
        refine (Finset.sum_subset (fun b hb => ?_) fun b _ hb => ?_).symm
        · exact List.mem_toFinset.mpr (hheld b (hsub.subset (List.mem_toFinset.mp hb)))
        · exact hzero b fun hin => hb (List.mem_toFinset.mpr hin)
    _ = ((rs.map (·.account)).map f).sum := List.sum_toFinset f (hsub.nodup hnodup)
    _ = (rs.map fun r => usdcAt (adlSize r.position price r.deficit) price).sum := by
        rw [List.map_map]
        refine congrArg List.sum (List.map_congr_left fun r hr => ?_)
        show usdcAt (|e.state.sizeAt r.account m| - |e'.state.sizeAt r.account m|) price = _
        rw [(hclosed r hr).2.1, sub_sub_cancel]

/-- **Auto-deleverage** keeps all of its contract but whom it closes: it closes only winners on
the other side exactly when the ranking reaches no one else before the deficit is covered. The
walk down the ranking is computed beforehand (`reached`): whom it reaches loses part of the
position, and nobody else does. -/
theorem winnersOnly_iff {ord : HashOrder} (hwf : PositionsWF e.state)
    (hd : deficit.decimals = 6) (hpos : 0 < deficit.value)
    (h : triggerAdl ord e m deficit price = .ok e') :
    WinnersOnly e.state e'.state a m price deficit.value ↔
      ReachesWinners ord e a m price deficit.value := by
  obtain ⟨cs, hranked, -⟩ := bind_inv (show _ >>= _ = _ from h)
  have hclosed := triggerAdl_reached hwf hd hranked h
  have hkept := (triggerAdl_run hwf hd hranked h).2
  constructor
  · intro hwin cs' hcs' r hr
    obtain rfl := ok_unique hcs' hranked
    exact hwin.winners r.account (hclosed r hr).1
  · intro hreach
    have hin : ∀ b, e'.state.getPosition b m ≠ e.state.getPosition b m →
        ∃ r ∈ reached e.state m price deficit.value (cs.map Prod.fst), r.account = b := by
      intro b hb
      by_contra hnone
      exact hb (hkept b m fun _ hin => hnone (List.mem_map.mp hin))
    refine ⟨?_, fun b k hk => hkept b k fun heq => absurd heq hk, ?_, ?_, ?_⟩
    · obtain ⟨positions, rfl⟩ := triggerAdl_only h
      exact ⟨positions, rfl⟩
    · intro b hb
      obtain ⟨r, hr, rfl⟩ := hin b hb
      exact hreach cs hranked r hr
    · intro b
      by_cases hb : e'.state.getPosition b m = e.state.getPosition b m
      · rw [sizeAt_congr hb]
        exact ⟨le_refl _, mul_self_nonneg _⟩
      · obtain ⟨r, hr, rfl⟩ := hin b hb
        obtain ⟨-, hsize, hside⟩ := hclosed r hr
        have := (adlSize_bounds r.position price r.deficit).1
        exact ⟨by omega, hside⟩
    · rw [closedNotional_eq hwf hd hranked h]
      exact reached_covers _ hpos.le

end Walk

/-- A test of a triggered auto-deleverage, on the engine before and after it. -/
def adlTest (ops : List Op) (deficit price : Int) (test : Engine → Engine → Bool) :
    Exec Bool := do
  let e ← btcRun none ops
  let e' ← triggerAdl .sorted e 0 ⟨deficit, 6⟩ ⟨price, 8⟩
  return test e e'

theorem exists_of_adlTest (ops : List Op) (deficit price : Int) (test : Engine → Engine → Bool)
    (h : adlTest ops deficit price test = .ok true) : ∃ e e', Reachable e ∧
      triggerAdl .sorted e 0 ⟨deficit, 6⟩ ⟨price, 8⟩ = .ok e' ∧ test e e' = true := by
  obtain ⟨e, he, h⟩ := bind_inv h
  obtain ⟨e', he', h⟩ := bind_inv h
  exact ⟨e, e', btcRun_reachable he, he', pure_inv h⟩

instance {s : EngineState} {a b : AccountAddress} {m : MarketId} : Decidable (Opposite s a b m) :=
  inferInstanceAs (Decidable (_ < _))

instance {ord : HashOrder} {e : Engine} {a : AccountAddress} {m : MarketId} {price : Decimal}
    {deficit : Int} : Decidable (ReachesWinners ord e a m price deficit) :=
  inferInstanceAs (Decidable (After (adlCandidates ord e m) fun cs =>
    ∀ r ∈ reached e.state m price deficit (cs.map Prod.fst),
      r.account ≠ a ∧ Opposite e.state a r.account m))

/-- Account 1 is long at 65000 and the mark price falls: the shorts of accounts 2 and 3 pay
for the deficit. -/
theorem winnersOnly_shorts : ∃ e e', Reachable e ∧
    findUnderwaterAccounts .sorted e = .ok [(1, 0)] ∧
    triggerAdl .sorted e 0 ⟨6870025, 6⟩ ⟨5820769900000, 8⟩ = .ok e' ∧
    e'.state.sizeAt 3 0 = -4888201 ∧
    WinnersOnly e.state e'.state 1 0 ⟨5820769900000, 8⟩ 6870025 := by
  obtain ⟨e, e', hreach, hadl, htest⟩ := exists_of_adlTest
    [.deposit 1 655000000, .deposit 2 1000000000000, .deposit 3 1000000000000,
      .placeOrder 2 (limitOrder .sell .gtc 6500000000000 5000000) 5,
      .placeOrder 3 (limitOrder .sell .gtc 6500000000000 5000000) 6,
      .placeOrder 1 (limitOrder .buy .gtc 6500000000000 10000000) 7,
      .placeOrder 2 (limitOrder .sell .gtc 200000000 100000) 8,
      .placeOrder 3 (limitOrder .buy .gtc 200000000 100000) 9]
    6870025 5820769900000
    (fun e e' => decide (findUnderwaterAccounts .sorted e = .ok [(1, 0)] ∧
      e'.state.sizeAt 3 0 = -4888201 ∧
      ReachesWinners .sorted e 1 0 ⟨5820769900000, 8⟩ 6870025)) (by decide +kernel)
  obtain ⟨hunder, hclosed, hwinners⟩ := of_decide_eq_true htest
  exact ⟨e, e', hreach, hunder, hadl, hclosed,
    (winnersOnly_iff hreach.positionsWF rfl (by decide) hadl).mpr hwinners⟩

/-- Account 3 is long as well, from a price of 1: it is the best ranked and pays for the
deficit of account 1, on its own side. -/
theorem winnersOnly_same_side : ∃ e e', Reachable e ∧
    findUnderwaterAccounts .sorted e = .ok [(1, 0)] ∧ e.state.insuranceFund = 0 ∧
    Prod.fst <$> liquidationLeg e (1, 0) = .ok (-126584885) ∧
    triggerAdl .sorted e 0 ⟨126584885, 6⟩ ⟨5296910459500, 8⟩ = .ok e' ∧
    0 < e.state.sizeAt 1 0 ∧ 0 < e.state.sizeAt 3 0 ∧
    ¬ WinnersOnly e.state e'.state 1 0 ⟨5296910459500, 8⟩ 126584885 := by
  obtain ⟨e, e', hreach, hadl, htest⟩ := exists_of_adlTest
    [.deposit 1 700000000, .deposit 2 1000000000000, .deposit 3 1000000000000,
      .placeOrder 2 (limitOrder .sell .gtc 100000000 10000000) 5,
      .placeOrder 3 (limitOrder .buy .gtc 100000000 10000000) 6,
      .placeOrder 2 (limitOrder .sell .gtc 6500000000000 10000000) 7,
      .placeOrder 1 (limitOrder .buy .gtc 6500000000000 10000000) 8,
      .placeOrder 2 (limitOrder .sell .gtc 200000000 100000) 9,
      .placeOrder 3 (limitOrder .buy .gtc 200000000 100000) 10]
    126584885 5296910459500
    (fun e e' => decide (findUnderwaterAccounts .sorted e = .ok [(1, 0)] ∧
      e.state.insuranceFund = 0 ∧ Prod.fst <$> liquidationLeg e (1, 0) = .ok (-126584885) ∧
      0 < e.state.sizeAt 1 0 ∧ 0 < e.state.sizeAt 3 0 ∧
      e'.state.getPosition 3 0 ≠ e.state.getPosition 3 0)) (by decide +kernel)
  obtain ⟨hunder, hfund, hleg, hlong, hlong', hchanged⟩ := of_decide_eq_true htest
  refine ⟨e, e', hreach, hunder, hfund, hleg, hadl, hlong, hlong', fun hwin => ?_⟩
  have hside : e.state.sizeAt 1 0 * e.state.sizeAt 3 0 < 0 := (hwin.winners 3 hchanged).2
  exact absurd (mul_pos hlong hlong') (by omega)

end Engine

end Hypercore
