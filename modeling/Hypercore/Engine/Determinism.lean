import Hypercore.Engine.Filing
import Hypercore.Engine.LiquidationProgress
import Hypercore.Engine.Screening
import Hypercore.Lib.Sorting
import Mathlib.Data.List.Permutation
/-!
# Hypercore.Engine.Determinism

Whether two validators whose hash maps iterate in different orders liquidate the same
positions and end in the same state.

The order is visible at two places, both times through a tie. `findWorstPosition` takes
the first of several worst positions, and the stable sort of `adlCandidates` keeps
candidates of equal score as they were visited. Sums over positions, the list of
candidates and the sorted result do not depend on it.

Neither tie always matters. Worst positions are only looked for in accounts that the
pre-screen flags and the precise check confirms (`Confirmed`). Candidates that tie are closed
as well if the deficit has run out before them, or covers both: then each of them is closed
by the same size whether it comes before the other or after it (`Indifferent`). Two rankings
close the same of everyone if all tied neighbours are indifferent, and only then
(`tiesHarmless_iff`). Without ties that matter (`TieFree`), a pass is a function of the state.
-/

namespace Hypercore

open Exec Int128

/-! ### Sums over positions -/

namespace RiskEngine

section Sum

variable {α : Type} {f : α → Exec Decimal} {l l' : List α}

/-- **A sum does not depend on the order.** -/
theorem sumUsdc_perm {r r' : Decimal} (hp : l.Perm l') (h : sumUsdc f l = .ok r)
    (h' : sumUsdc f l' = .ok r') : r = r' := by
  rw [sumUsdc_eq h, sumUsdc_eq h', (hp.map _).sum_eq]

end Sum

theorem belowMaintenance_perm {account : AccountState} {l l' : List (Position × Market)}
    {b b' : Bool} (hp : l.Perm l') (h : belowMaintenance account l = .ok b)
    (h' : belowMaintenance account l' = .ok b') : b = b' := by
  obtain ⟨equity, hequity, h⟩ := bind_inv h
  obtain ⟨margin, hmargin, h⟩ := bind_inv h
  obtain ⟨margin₁, hmargin₁, h⟩ := bind_inv h
  obtain ⟨equity', hequity', h'⟩ := bind_inv h'
  obtain ⟨margin', hmargin', h'⟩ := bind_inv h'
  obtain ⟨margin₁', hmargin₁', h'⟩ := bind_inv h'
  obtain ⟨pnl, hpnl, hequity⟩ := bind_inv hequity
  obtain ⟨pnl', hpnl', hequity'⟩ := bind_inv hequity'
  obtain rfl := sumUsdc_perm hp hpnl hpnl'
  obtain rfl := ok_unique hequity hequity'
  obtain rfl := sumUsdc_perm hp hmargin hmargin'
  obtain rfl := ok_unique hmargin₁ hmargin₁'
  exact (pure_inv h).symm.trans (pure_inv h')

theorem isAccountLiquidatable_perm {account : AccountState} {l l' : List (Position × Market)}
    {b b' : Bool} (hp : l.Perm l') (h : isAccountLiquidatable account l = .ok b)
    (h' : isAccountLiquidatable account l' = .ok b') : b = b' := by
  unfold isAccountLiquidatable at h h'
  by_cases hnil : l = []
  · subst hnil
    obtain rfl := hp.symm.eq_nil
    exact (pure_inv h).symm.trans (pure_inv h')
  · have hnil' : l' ≠ [] := fun heq => hnil (by rw [heq] at hp; exact hp.eq_nil)
    rw [if_neg hnil] at h
    rw [if_neg hnil'] at h'
    exact belowMaintenance_perm hp h h'

end RiskEngine

namespace Engine

open EngineState

/-! ### Finding liquidatable accounts -/

/-- The pre-screen flags an open position of an account, and the precise check of all its
positions confirms it. -/
def Confirmed (ord : HashOrder) (s : EngineState) (a : AccountAddress) : Prop :=
  ∃ c ∈ candidates ord s, c.account = a ∧ flagged s c = .ok true ∧ AccountLiquidatable ord s a

/-- A cross-margin account that is found liquidatable has one worst position. -/
def WorstUnique (s : EngineState) : Prop :=
  ∀ (ord : HashOrder) (a : AccountAddress) (m m' : MarketId), s.getMarginMode a = .cross →
    Confirmed ord s a → Worst s a m → Worst s a m' → m = m'

theorem held_perm (ord ord' : HashOrder) (s : EngineState) (a : AccountAddress) :
    (held ord s a).Perm (held ord' s a) := (ord.perm_visit ord' _).filterMap _

/-- An account that one order has found liquidatable and another has looked at. -/
theorem AccountLiquidatable.transfer {ord ord' : HashOrder} {s : EngineState}
    {a : AccountAddress} (h : AccountLiquidatable ord s a)
    (hcheck : ∀ account, s.getAccount a = some account →
      ∃ q, RiskEngine.isAccountLiquidatable account (held ord' s a) = .ok q) :
    AccountLiquidatable ord' s a := by
  obtain ⟨account, hacc, hq⟩ := h
  obtain ⟨q, hq'⟩ := hcheck account hacc
  obtain rfl := RiskEngine.isAccountLiquidatable_perm (held_perm ord ord' s a) hq hq'
  exact ⟨account, hacc, hq'⟩

theorem candidates_mem_iff (ord ord' : HashOrder) (s : EngineState) (c : Candidate) :
    c ∈ candidates ord s ↔ c ∈ candidates ord' s := mem_candidates.trans mem_candidates.symm

/-- What one order finds, any other finds. -/
theorem Screened.transfer {ord ord' : HashOrder} {s : EngineState}
    {acc acc' : List (AccountAddress × MarketId) × List AccountAddress}
    (h : Screened ord s (candidates ord s) acc) (h' : Screened ord' s (candidates ord' s) acc')
    (hfiled : MarketsFiled s) (hworst : WorstUnique s) {pair : AccountAddress × MarketId}
    (hin : pair ∈ acc.1) : pair ∈ acc'.1 := by
  obtain ⟨a, m⟩ := pair
  cases hmode : s.getMarginMode a with
  | isolated =>
    obtain ⟨c, hc, hrest⟩ := (h.isolated a m hmode).mp hin
    exact (h'.isolated a m hmode).mpr ⟨c, (candidates_mem_iff ord ord' s c).mp hc, hrest⟩
  | cross =>
    have hfilter : (a, m) ∈ acc.1.filter (·.1 = a) := List.mem_filter.mpr ⟨hin, by simp⟩
    have hconf : a ∈ acc.2 := by
      by_contra hnot
      rw [h.nothing a hmode hnot] at hfilter
      exact absurd hfilter List.not_mem_nil
    obtain ⟨worst, hfound, heq⟩ := h.cross a hmode hconf
    obtain ⟨c, hc, rfl, hf, hl⟩ := (h.confirmed a hmode).mp hconf
    have hc' := (candidates_mem_iff ord ord' s c).mp hc
    have hl' := hl.transfer (h'.checked c hc' hmode hf)
    obtain ⟨worst', hfound', heq'⟩ :=
      h'.cross c.account hmode ((h'.confirmed _ hmode).mpr ⟨c, hc', rfl, hf, hl'⟩)
    obtain ⟨hrec, hopen, -⟩ := mem_candidates.mp hc
    obtain rfl : worst = worst' := hworst ord c.account worst worst' hmode ⟨c, hc, rfl, hf, hl⟩
      (findWorstPosition_spec hfiled ⟨c, hrec, rfl, hopen⟩ hfound)
      (findWorstPosition_spec hfiled ⟨c, hrec, rfl, hopen⟩ hfound')
    rw [heq, ← heq'] at hfilter
    exact (List.mem_filter.mp hfilter).1

instance : Std.Total pairLe where
  total p q := by
    unfold pairLe
    rcases lt_trichotomy p.1 q.1 with h | h | h
    · exact .inl (.inl h)
    · exact (UInt8.le_total p.2 q.2).imp (fun hle => .inr ⟨h, hle⟩) (fun hle => .inr ⟨h.symm, hle⟩)
    · exact .inr (.inl h)

instance : IsTrans _ pairLe where
  trans p q r h h' := by
    unfold pairLe at *
    rcases h with h | ⟨h, hle⟩ <;> rcases h' with h' | ⟨h', hle'⟩
    · exact .inl (h.trans h')
    · exact .inl (h' ▸ h)
    · exact .inl (h ▸ h')
    · exact .inr ⟨h.trans h', UInt8.le_trans hle hle'⟩

theorem pairLe_antisymm {p q : AccountAddress × MarketId} (h : pairLe p q) (h' : pairLe q p) :
    p = q := by
  unfold pairLe at h h'
  rcases h with h | ⟨h, hle⟩ <;> rcases h' with h' | ⟨h', hle'⟩
  · exact absurd (h.trans h') (lt_irrefl _)
  · exact absurd (h' ▸ h) (lt_irrefl _)
  · exact absurd (h ▸ h') (lt_irrefl _)
  · exact Prod.ext h (UInt8.le_antisymm hle hle')

/-- Sorting forgets the order of the input, if the sort does not tie two of its items. -/
theorem insertionSort_perm {α : Type} {r : α → α → Prop} [DecidableRel r] [Std.Total r]
    [IsTrans α r] {l l' : List α} (hp : l.Perm l')
    (hties : ∀ a ∈ l, ∀ b ∈ l, r a b → r b a → a = b) :
    l.insertionSort r = l'.insertionSort r := by
  have hsorted := (List.perm_insertionSort r l).trans (hp.trans (List.perm_insertionSort r l').symm)
  refine List.Perm.eq_of_pairwise (fun a b ha hb => ?_) (List.pairwise_insertionSort r l)
    (List.pairwise_insertionSort r l') hsorted
  exact hties a ((List.perm_insertionSort r l).mem_iff.mp ha) b
    (hp.mem_iff.mpr ((List.perm_insertionSort r l').mem_iff.mp hb))

/-- **The search is deterministic** where worst positions are unique. -/
theorem findUnderwaterAccounts_eq {ord ord' : HashOrder} {e : Engine}
    {pairs pairs' : List (AccountAddress × MarketId)} (hfiled : MarketsFiled e.state)
    (hworst : WorstUnique e.state) (h : findUnderwaterAccounts ord e = .ok pairs)
    (h' : findUnderwaterAccounts ord' e = .ok pairs') : pairs = pairs' := by
  obtain ⟨acc, hs, hp⟩ := findUnderwaterAccounts_screened h
  obtain ⟨acc', hs', hp'⟩ := findUnderwaterAccounts_screened h'
  have hperm : pairs.Perm pairs' := by
    refine (List.perm_ext_iff_of_nodup (findUnderwaterAccounts_nodup h)
      (findUnderwaterAccounts_nodup h')).mpr fun pair => ?_
    rw [hp.mem_iff, hp'.mem_iff]
    exact ⟨hs.transfer hs' hfiled hworst, hs'.transfer hs hfiled hworst⟩
  obtain ⟨⟨found, _⟩, -, h⟩ := bind_inv h
  obtain ⟨⟨found', _⟩, -, h'⟩ := bind_inv h'
  obtain rfl := pure_inv h
  obtain rfl := pure_inv h'
  exact insertionSort_perm (((List.perm_insertionSort _ _).symm.trans hperm).trans
    (List.perm_insertionSort _ _)) fun _ _ _ _ => pairLe_antisymm

/-! ### Ties in a ranking -/

/-- What auto-deleverage closes of a position at a deficit. -/
def closedAt (s : EngineState) (m : MarketId) (price : Decimal) (d : Int) (a : AccountAddress) :
    Int :=
  match s.getPosition a m with
  | none => 0
  | some p => adlSize p price d

/-- The deficit that a position leaves to the candidates after it. -/
def leftAfter (s : EngineState) (m : MarketId) (price : Decimal) (d : Int) (a : AccountAddress) :
    Int :=
  match s.getPosition a m with
  | none => d
  | some p => if adlSize p price d = 0 then d else d - min d (usdcNotional p price)

/-- Of two neighbours in a ranking, each is closed by the same size before and after the
other. -/
def Indifferent (s : EngineState) (m : MarketId) (price : Decimal) (d : Int)
    (a b : AccountAddress) : Prop :=
  closedAt s m price (leftAfter s m price d b) a = closedAt s m price d a ∧
    closedAt s m price (leftAfter s m price d a) b = closedAt s m price d b

instance {s : EngineState} {m : MarketId} {price : Decimal} {d : Int} {a b : AccountAddress} :
    Decidable (Indifferent s m price d a b) := inferInstanceAs (Decidable (_ ∧ _))

/-- Tied neighbours in a ranking are indifferent, at the deficit that those before them
leave. -/
def Harmless (s : EngineState) (m : MarketId) (price : Decimal) :
    Int → List (AccountAddress × Decimal) → Prop
  | _, [] => True
  | d, x :: l => (∀ y ∈ l.head?, x.2.value = y.2.value → Indifferent s m price d x.1 y.1) ∧
    Harmless s m price (leftAfter s m price d x.1) l

instance Harmless.decide {s : EngineState} {m : MarketId} {price : Decimal} :
    (d : Int) → (l : List (AccountAddress × Decimal)) → Decidable (Harmless s m price d l)
  | _, [] => .isTrue trivial
  | d, x :: l =>
    have : Decidable (Harmless s m price (leftAfter s m price d x.1) l) := Harmless.decide _ l
    inferInstanceAs (Decidable ((∀ y ∈ l.head?, _) ∧ _))

/-- The order in which candidates are deleveraged. -/
abbrev Ranks (x y : AccountAddress × Decimal) : Prop := y.2.value ≤ x.2.value

/-- No tie among the candidates of a market matters, in whatever order they were visited. -/
def TiesHarmless (e : Engine) (m : MarketId) (price : Decimal) (d : Int) : Prop :=
  After (adlCandidates .sorted e m) fun cs =>
    ∀ l ∈ cs.permutations', l.Pairwise Ranks → Harmless e.state m price d l

instance {e : Engine} {m : MarketId} {price : Decimal} {d : Int} :
    Decidable (TiesHarmless e m price d) :=
  inferInstanceAs (Decidable (After (adlCandidates .sorted e m) fun cs =>
    ∀ l ∈ cs.permutations', l.Pairwise Ranks → Harmless e.state m price d l))

/-- What a ranking closes, and of whom. -/
def closings (s : EngineState) (m : MarketId) (price : Decimal) (d : Int)
    (l : List (AccountAddress × Decimal)) : List (AccountAddress × Int) :=
  (reached s m price d (l.map Prod.fst)).map fun r =>
    (r.account, adlSize r.position price r.deficit)

instance : Std.Total Ranks where
  total _ _ := le_total _ _

instance : IsTrans _ Ranks where
  trans _ _ _ h h' := h'.trans h

instance : Std.Refl Ranks where
  refl _ := le_refl _

section Ties

variable {s : EngineState} {m : MarketId} {price : Decimal} {d : Int} {a b : AccountAddress}
  {x y : AccountAddress × Decimal} {l l' cs : List (AccountAddress × Decimal)}

theorem closings_cons : closings s m price d (x :: l) =
    (if closedAt s m price d x.1 = 0 then [] else [(x.1, closedAt s m price d x.1)]) ++
      closings s m price (leftAfter s m price d x.1) l := by
  unfold closings closedAt leftAfter
  rw [List.map_cons, reached]
  cases s.getPosition x.1 m with
  | none => rfl
  | some p =>
    dsimp only
    split <;> rfl

theorem closings_append (u : List (AccountAddress × Decimal)) :
    closings s m price d (u ++ l) = closings s m price d u ++
      closings s m price (u.foldl (fun d x => leftAfter s m price d x.1) d) l := by
  induction u generalizing d with
  | nil => rfl
  | cons x u ih => rw [List.cons_append, closings_cons, closings_cons, ih, List.append_assoc]; rfl

/-- What a candidate leaves, it leaves behind indifferent neighbours as well. -/
theorem leftAfter_comm (h : Indifferent s m price d a b) :
    leftAfter s m price (leftAfter s m price d a) b =
      leftAfter s m price (leftAfter s m price d b) a := by
  unfold Indifferent closedAt leftAfter at h
  unfold leftAfter
  cases hp : s.getPosition a m with
  | none => rfl
  | some p =>
    cases hq : s.getPosition b m with
    | none => rfl
    | some q =>
      simp only [hp, hq] at h ⊢
      obtain ⟨ha, hb⟩ := h
      by_cases hp0 : adlSize p price d = 0
      · rw [if_pos hp0] at hb ⊢
        rw [if_pos (ha.trans hp0)]
      · by_cases hq0 : adlSize q price d = 0
        · rw [if_neg hp0] at hb ⊢
          rw [if_pos hq0, if_neg hp0, if_pos (hb.trans hq0)]
        · -- both are closed, so neither exhausts the deficit
          rw [if_neg hp0] at hb ⊢
          rw [if_neg hq0] at ha ⊢
          rw [← ha] at hp0
          rw [← hb] at hq0
          rw [if_neg hp0, if_neg hq0]
          have hd := (adlSize_eq hp0).1
          have hd' := (adlSize_eq hq0).1
          omega

/-- **Swap.** Indifferent neighbours change places without a difference. -/
theorem closings_swap (h : Indifferent s m price d x.1 y.1) :
    (closings s m price d (x :: y :: l)).Perm (closings s m price d (y :: x :: l)) := by
  rw [closings_cons, closings_cons, closings_cons (x := y),
    closings_cons (x := x) (d := leftAfter ..),
    h.1, h.2, leftAfter_comm h, ← List.append_assoc, ← List.append_assoc]
  exact List.perm_append_comm.append_right _

/-- Tied neighbours anywhere in a ranking. -/
theorem harmless_iff : Harmless s m price d l ↔ ∀ u x y v, l = u ++ x :: y :: v →
    x.2.value = y.2.value →
      Indifferent s m price (u.foldl (fun d x => leftAfter s m price d x.1) d) x.1 y.1 := by
  induction l generalizing d with
  | nil => exact ⟨fun _ u x y v h => absurd h (by simp), fun _ => trivial⟩
  | cons z l ih =>
    unfold Harmless
    rw [ih]
    constructor
    · rintro ⟨hhead, hrest⟩ u x y v heq htie
      cases u with
      | nil =>
        obtain ⟨rfl, rfl⟩ := List.cons.inj heq
        exact hhead y rfl htie
      | cons z' u =>
        obtain ⟨rfl, rfl⟩ := List.cons.inj heq
        exact hrest u x y v rfl htie
    · intro hall
      refine ⟨fun y hy htie => ?_, fun u x y v heq => hall (z :: u) x y v (by rw [heq]; rfl)⟩
      obtain ⟨v, rfl⟩ := List.head?_eq_some_iff.mp hy
      exact hall [] z y v rfl htie

/-- What is closed of the account that a ranking visits first, and nowhere else. -/
theorem mem_closings_cons {n : Int} (h : x.1 ∉ l.map Prod.fst) :
    (x.1, n) ∈ closings s m price d (x :: l) ↔ n = closedAt s m price d x.1 ∧ n ≠ 0 := by
  have hrest : ∀ d', (x.1, n) ∉ closings s m price d' l := fun d' hin => by
    obtain ⟨r, hr, heq⟩ := List.mem_map.mp hin
    exact h ((reached_accounts s m price d' _).subset
      (List.mem_map.mpr ⟨r, hr, congrArg Prod.fst heq⟩))
  rw [closings_cons, List.mem_append, or_iff_left (hrest _)]
  split
  · rename_i hz
    rw [hz]
    simp
  · rename_i hz
    simp only [List.mem_singleton, Prod.mk.injEq, true_and]
    exact ⟨fun heq => ⟨heq, heq ▸ hz⟩, And.left⟩

/-- If a swap makes no difference, the first is closed by the same size after the second. -/
theorem closedAt_of_swap (hnodup : ((x :: y :: l).map Prod.fst).Nodup)
    (h : (closings s m price d (x :: y :: l)).Perm (closings s m price d (y :: x :: l))) :
    closedAt s m price (leftAfter s m price d y.1) x.1 = closedAt s m price d x.1 := by
  obtain ⟨hx, hnodup⟩ := List.nodup_cons.mp hnodup
  obtain ⟨hxy, hxl⟩ := not_or.mp (List.mem_cons.not.mp hx)
  have hall : ∀ n, n = closedAt s m price d x.1 ∧ n ≠ 0 ↔
      n = closedAt s m price (leftAfter s m price d y.1) x.1 ∧ n ≠ 0 := fun n => by
    rw [← mem_closings_cons hx, h.mem_iff, closings_cons, List.mem_append, mem_closings_cons hxl]
    refine or_iff_right fun hin => ?_
    split at hin
    · cases hin
    · exact hxy (Prod.mk.inj (List.mem_singleton.mp hin)).1
  have h1 := hall (closedAt s m price d x.1)
  have h2 := hall (closedAt s m price (leftAfter s m price d y.1) x.1)
  omega

/-- **Rankings.** All orders in which the candidates may be visited close the same of the same
accounts exactly when tied neighbours are indifferent in each of them. -/
theorem tiesHarmless_iff {e : Engine} (h : adlCandidates .sorted e m = .ok cs) :
    TiesHarmless e m price d ↔ ∀ l l', l.Perm cs → l'.Perm cs → l.Pairwise Ranks →
      l'.Pairwise Ranks →
        (closings e.state m price d l).Perm (closings e.state m price d l') := by
  have hharmless : TiesHarmless e m price d ↔
      ∀ l, l.Perm cs → l.Pairwise Ranks → Harmless e.state m price d l := by
    simp only [TiesHarmless, h, after_ok, List.mem_permutations']
  rw [hharmless]
  constructor
  · intro hties l l' hl hl' hs hs'
    refine Multiset.coe_eq_coe.mp (List.eq_of_tied_swaps
      (f := fun l => (closings e.state m price d l : Multiset (AccountAddress × Int)))
      (fun u x y v hperm hsorted htie => Multiset.coe_eq_coe.mpr ?_) (hl'.trans hl.symm) hs hs')
    have hle : Ranks x y := by
      have := (List.pairwise_append.mp hsorted).2.1
      exact (List.pairwise_cons.mp this).1 y (.head _)
    rw [closings_append, closings_append]
    exact (closings_swap (harmless_iff.mp (hties _ (hperm.trans hl) hsorted) u x y v rfl
      (le_antisymm htie hle))).append_left _
  · intro hsame l hl hs
    refine harmless_iff.mpr fun u x y v heq htie => ?_
    subst heq
    have hswapped : (u ++ y :: x :: v).Perm cs := ((List.Perm.swap x y v).append_left u).trans hl
    have hperm := hsame _ _ hl hswapped hs (hs.swap_tied htie.le)
    rw [closings_append, closings_append, List.perm_append_left_iff] at hperm
    have hnodup : ((x :: y :: v).map Prod.fst).Nodup :=
      ((hl.map Prod.fst).nodup_iff.mpr (adlCandidates_accounts h).1).sublist
        ((List.sublist_append_right u _).map _)
    exact ⟨closedAt_of_swap hnodup hperm,
      closedAt_of_swap ((List.Perm.swap x y v).map Prod.fst |>.nodup_iff.mpr hnodup) hperm.symm⟩

end Ties

/-! ### Deleveraging -/

/-- The deficit that liquidating a position leaves to auto-deleverage, where the insurance fund
does not cover it, and the price at which it is to be covered. -/
def uncoveredDeficit (e : Engine) (pair : AccountAddress × MarketId) :
    Exec (Option (Int × Decimal)) :=
  match e.state.getMarket pair.2, e.state.getPosition pair.1 pair.2 with
  | some market, some p => do
    match ← e.liquidation.processLiquidation p market,
      ← LiquidationEngine.calculateBankruptcyPrice p (e.state.getBalance pair.1) with
    | some (size, price), some bankruptcy =>
      let residual ← residualUsdc bankruptcy size price p.isShort
      return if residual.value < 0 ∧ e.state.insuranceFund + residual.value < 0 then
        some (-residual.value, price) else none
    | _, _ => return none
  | _, _ => return none

/-- No tie among those who pay for the deficit of a liquidation matters. -/
def AdlTieFree (e : Engine) (pair : AccountAddress × MarketId) : Prop :=
  After (uncoveredDeficit e pair) fun o => ∀ x ∈ o, TiesHarmless e pair.2 x.2 x.1

instance {e : Engine} {pair : AccountAddress × MarketId} : Decidable (AdlTieFree e pair) :=
  inferInstanceAs (Decidable (After (uncoveredDeficit e pair) fun o =>
    ∀ x ∈ o, TiesHarmless e pair.2 x.2 x.1))

section Deleverage

variable {ord ord' : HashOrder} {e e₁ e₂ : Engine} {m : MarketId} {price : Decimal}

/-- A ranking arranges the same candidates in the order of their scores. -/
theorem adlCandidates_ranks {l : List (AccountAddress × Decimal)}
    (h : adlCandidates ord e m = .ok l) :
    ∃ cs, adlCandidates .sorted e m = .ok cs ∧ l.Perm cs ∧ l.Pairwise Ranks := by
  obtain ⟨scored, hscored, h⟩ := bind_inv h
  obtain rfl := pure_inv h
  obtain ⟨scored', hscored', hp⟩ := filterMapM_perm (ord.perm_visit .sorted _) hscored
  refine ⟨scored'.insertionSort Ranks, ?_, ?_, List.pairwise_insertionSort Ranks scored⟩
  · show (_ >>= _) = _
    rw [hscored']
    rfl
  · exact (List.perm_insertionSort _ _).trans (hp.trans (List.perm_insertionSort _ _).symm)

/-- Positions that are looked up are all there is of the map. -/
theorem positions_ext {s s' : EngineState} (hs : PositionsOpen s) (hs' : PositionsOpen s')
    (h : ∀ a m, s.getPosition a m = s'.getPosition a m) : s.positions = s'.positions := by
  refine Std.ExtTreeMap.ext_getElem? fun a => ?_
  have hget := h a
  unfold getPosition at hget
  cases hps : s.positions[a]? with
  | none =>
    cases hps' : s'.positions[a]? with
    | none => rfl
    | some ps =>
      obtain ⟨m, p, hp⟩ := hs' a ps hps'
      rw [← h, getPosition, hps] at hp
      cases hp
  | some ps =>
    cases hps' : s'.positions[a]? with
    | none =>
      obtain ⟨m, p, hp⟩ := hs a ps hps
      rw [h, getPosition, hps'] at hp
      cases hp
    | some ps' =>
      rw [hps, hps'] at hget
      exact congrArg some (Std.ExtTreeMap.ext_getElem? hget)

/-- What a ranking closes of an account is what its position has lost. -/
theorem triggerAdl_closings {cs : List (AccountAddress × Decimal)} {d : Int}
    (hwf : PositionsWF e.state) (hranked : adlCandidates ord e m = .ok cs)
    (h : triggerAdl ord e m ⟨d, 6⟩ price = .ok e₁) (a : AccountAddress) :
    (∀ n, (a, n) ∈ closings e.state m price d cs → ∃ p p', e.state.getPosition a m = some p ∧
        p.applyFill ⟨n, 8⟩ price p.isShort = .ok p' ∧ e₁.state.getPosition a m = some p') ∧
      ∀ k, (k = m → ∀ n, (a, n) ∉ closings e.state m price d cs) →
        e₁.state.getPosition a k = e.state.getPosition a k := by
  obtain ⟨hclosed, hkept⟩ := triggerAdl_run hwf rfl hranked h
  refine ⟨fun n hn => ?_, fun k hk => hkept a k fun hkm hin => ?_⟩
  · obtain ⟨r, hr, heq⟩ := List.mem_map.mp hn
    obtain ⟨rfl, rfl⟩ := Prod.mk.inj heq
    obtain ⟨p', hfill, hp'⟩ := hclosed r hr
    exact ⟨_, p', (mem_reached hr).1, hfill, hp'⟩
  · obtain ⟨r, hr, rfl⟩ := List.mem_map.mp hin
    exact hk hkm _ (List.mem_map.mpr ⟨r, hr, rfl⟩)

/-- **One auto-deleverage** leaves the same state where no tie matters. -/
theorem triggerAdl_agree {d : Int} (hwf : PositionsWF e.state) (hopen : PositionsOpen e.state)
    (hties : TiesHarmless e m price d) (h : triggerAdl ord e m ⟨d, 6⟩ price = .ok e₁)
    (h' : triggerAdl ord' e m ⟨d, 6⟩ price = .ok e₂) : e₁ = e₂ := by
  obtain ⟨l, hl, -⟩ := bind_inv (show _ >>= _ = _ from h)
  obtain ⟨l', hl', -⟩ := bind_inv (show _ >>= _ = _ from h')
  obtain ⟨cs, hcs, hp, hs⟩ := adlCandidates_ranks hl
  obtain ⟨cs', hcs', hp', hs'⟩ := adlCandidates_ranks hl'
  obtain rfl := ok_unique hcs hcs'
  have hsame := (tiesHarmless_iff hcs).mp hties l l' hp hp' hs hs'
  have hget : ∀ a k, e₁.state.getPosition a k = e₂.state.getPosition a k := by
    intro a k
    obtain ⟨hclosed, hkept⟩ := triggerAdl_closings hwf hl h a
    obtain ⟨hclosed', hkept'⟩ := triggerAdl_closings hwf hl' h' a
    by_cases hin : k = m ∧ ∃ n, (a, n) ∈ closings e.state m price d l
    · obtain ⟨rfl, n, hn⟩ := hin
      obtain ⟨p, q, hpos, hfill, hq⟩ := hclosed n hn
      obtain ⟨p', q', hpos', hfill', hq'⟩ := hclosed' n (hsame.mem_iff.mp hn)
      obtain rfl := Option.some.inj (hpos.symm.trans hpos')
      obtain rfl := ok_unique hfill hfill'
      exact hq.trans hq'.symm
    · rw [hkept k fun hk n hn => hin ⟨hk, n, hn⟩,
        hkept' k fun hk n hn => hin ⟨hk, n, hsame.mem_iff.mpr hn⟩]
  have heq := positions_ext ((triggerAdl_posWrites hwf h).open hopen)
    ((triggerAdl_posWrites hwf h').open hopen) hget
  obtain ⟨positions, rfl⟩ := triggerAdl_only h
  obtain ⟨positions', rfl⟩ := triggerAdl_only h'
  obtain rfl : positions = positions' := heq
  rfl

theorem settleResidual_agree {b size : Decimal} {isBuy : Bool} (hwf : PositionsWF e.state)
    (hopen : PositionsOpen e.state)
    (hties : ∀ r, residualUsdc b size price isBuy = .ok r → r.value < 0 →
      e.state.insuranceFund + r.value < 0 → TiesHarmless e m price (-r.value))
    (h : settleResidual ord e m b size price isBuy = .ok e₁)
    (h' : settleResidual ord' e m b size price isBuy = .ok e₂) : e₁ = e₂ := by
  obtain ⟨r, hr, hcase⟩ := settleResidual_cases h
  obtain ⟨r', hr', hcase'⟩ := settleResidual_cases h'
  obtain rfl := ok_unique hr hr'
  by_cases hun : r.value < 0 ∧ e.state.insuranceFund + r.value < 0
  · exact triggerAdl_agree hwf hopen (hties r hr hun.1 hun.2)
      (settleResidual_uncovered hr hun.1 hun.2 h) (settleResidual_uncovered hr hun.1 hun.2 h')
  · rw [hcase.resolve_right fun hc => hun ⟨hc.1, hc.2.1⟩,
      hcase'.resolve_right fun hc => hun ⟨hc.1, hc.2.1⟩]

theorem applyLiquidation_agree {a : AccountAddress} {p : Position} {size : Decimal}
    (hwf : PositionsWF e.state) (hopen : PositionsOpen e.state)
    (hp : e.state.getPosition a m = some p)
    (hties : ∀ b r,
      LiquidationEngine.calculateBankruptcyPrice p (e.state.getBalance a) = .ok (some b) →
      residualUsdc b size price p.isShort = .ok r → r.value < 0 →
      e.state.insuranceFund + r.value < 0 → TiesHarmless e m price (-r.value))
    (h : applyLiquidation ord e a m size price = .ok e₁)
    (h' : applyLiquidation ord' e a m size price = .ok e₂) : e₁ = e₂ := by
  unfold applyLiquidation at h h'
  simp only [hp] at h h'
  obtain ⟨b, hb, h⟩ := bind_inv h
  obtain ⟨b', hb', h'⟩ := bind_inv h'
  obtain rfl := ok_unique hb hb'
  obtain ⟨e₃, h3, h⟩ := bind_inv h
  obtain ⟨e₄, h4, h'⟩ := bind_inv h'
  obtain rfl : e₃ = e₄ := by
    cases b with
    | none => exact (pure_inv h3).symm.trans (pure_inv h4)
    | some b => exact settleResidual_agree hwf hopen (fun r => hties b r hb) h3 h4
  exact ok_unique h h'

/-- **Step lemma.** -/
theorem liquidate_agree {l : Liquidations} {pair : AccountAddress × MarketId}
    {x y : Liquidations × Engine} (hwf : PositionsWF e.state) (hopen : PositionsOpen e.state)
    (hfree : AdlTieFree e pair) (h : liquidate ord (l, e) pair = .ok x)
    (h' : liquidate ord' (l, e) pair = .ok y) : x = y := by
  unfold liquidate at h h'
  dsimp only at h h'
  split at h
  · rename_i market p hm hp
    simp only [hm, hp] at h'
    obtain ⟨res, hres, h⟩ := bind_inv h
    obtain ⟨res', hres', h'⟩ := bind_inv h'
    obtain rfl := ok_unique hres hres'
    cases res with
    | none => exact (pure_inv h).symm.trans (pure_inv h')
    | some q =>
      obtain ⟨size, price⟩ := q
      obtain ⟨e₁, h1, h⟩ := bind_inv h
      obtain ⟨e₂, h2, h'⟩ := bind_inv h'
      obtain rfl : e₁ = e₂ := by
        refine applyLiquidation_agree hwf hopen hp (fun b r hb hr hneg hfund => ?_) h1 h2
        refine hfree (some (-r.value, price)) ?_ _ rfl
        simp only [uncoveredDeficit, hm, hp, hres, hb, hr, ok_bind, hneg, hfund, and_self, if_true]
        rfl
      exact (pure_inv h).symm.trans (pure_inv h')
  · rename_i hnone
    split at h'
    · rename_i hm hp
      exact (hnone _ _ hm hp).elim
    · exact (pure_inv h).symm.trans (pure_inv h')

end Deleverage

/-! ### A pass -/

/-- At every liquidation of a pass over the given positions, no tie matters among those who
pay for its deficit. -/
def TieFreePass : Engine → List (AccountAddress × MarketId) → Prop
  | _, [] => True
  | e, pair :: pairs => AdlTieFree e pair ∧
    ∀ ord l l' e', liquidate ord (l, e) pair = .ok (l', e') → TieFreePass e' pairs

/-- **Run lemma.** -/
theorem TieFreePass.fold_agree {ord ord' : HashOrder} {e : Engine} {l : Liquidations}
    {pairs : List (AccountAddress × MarketId)} {x y : Liquidations × Engine}
    (hwf : PositionsWF e.state) (hopen : PositionsOpen e.state) (hfree : TieFreePass e pairs)
    (h : pairs.foldlM (liquidate ord) (l, e) = .ok x)
    (h' : pairs.foldlM (liquidate ord') (l, e) = .ok y) : x = y := by
  induction pairs generalizing e l with
  | nil => exact (foldlM_nil_eq_ok.mp h).symm.trans (foldlM_nil_eq_ok.mp h')
  | cons pair pairs ih =>
    obtain ⟨⟨l₁, e₁⟩, h1, h⟩ := foldlM_cons_eq_ok.mp h
    obtain ⟨⟨l₂, e₂⟩, h2, h'⟩ := foldlM_cons_eq_ok.mp h'
    obtain ⟨rfl, rfl⟩ := Prod.mk.inj (liquidate_agree hwf hopen hfree.1 h1 h2)
    have hwrites := liquidate_posWrites hwf h1
    exact ih (hwrites.wf hwf) (hwrites.open hopen) (hfree.2 _ _ _ _ h1) h h'

/-- No tie decides anything: what is found in a confirmed account is unique, and whoever is
deleveraged for a deficit is deleveraged in every order. -/
structure TieFree (e : Engine) : Prop where
  worst : WorstUnique e.state
  adl : ∀ ord pairs, findUnderwaterAccounts ord e = .ok pairs → TieFreePass e pairs

/-- **Determinism.** Where no tie decides anything, passes over maps that iterate in
different orders return the same list and leave the same state: they find the same pairs, and
liquidating each of them leaves one state, in which the next is liquidated. -/
theorem processLiquidations_deterministic {ord ord' : HashOrder} {e e₁ e₂ : Engine}
    {l l' : Liquidations} (hr : Reachable e) (hfree : TieFree e)
    (h : e.processLiquidations ord = .ok (l, e₁))
    (h' : e.processLiquidations ord' = .ok (l', e₂)) : l = l' ∧ e₁ = e₂ := by
  obtain ⟨pairs, hpairs, h⟩ := bind_inv h
  obtain ⟨pairs', hpairs', h'⟩ := bind_inv h'
  obtain rfl := findUnderwaterAccounts_eq hr.marketsFiled hfree.worst hpairs hpairs'
  exact Prod.mk.inj ((hfree.adl ord pairs hpairs).fold_agree hr.positionsWF hr.positionsOpen h h')

/-- Operations on the BTC engine, and the pass after them in two orders. -/
def twoPasses (ops : List Op) :
    Exec (Engine × (Liquidations × Engine) × Liquidations × Engine) := do
  let e ← btcRun none ops
  let x ← e.processLiquidations .sorted
  let y ← e.processLiquidations .reversed
  return (e, x, y)

theorem twoPasses_eq_ok {ops : List Op} {e : Engine} {x y : Liquidations × Engine}
    (h : twoPasses ops = .ok (e, x, y)) : Reachable e ∧
      e.processLiquidations .sorted = .ok x ∧ e.processLiquidations .reversed = .ok y := by
  obtain ⟨e₁, h1, h⟩ := bind_inv h
  obtain ⟨x₁, h2, h⟩ := bind_inv h
  obtain ⟨y₁, h3, h⟩ := bind_inv h
  obtain ⟨rfl, rfl, rfl⟩ := by simpa using pure_inv h
  exact ⟨btcRun_reachable h1, h2, h3⟩

/-- Accounts 2 and 3 have sold the same size at the same price to account 1. Its deficit
is smaller than either position: the account that is visited first pays it. -/
theorem tied_scores_diverge : ∃ (e : Engine) (x y : Liquidations × Engine), Reachable e ∧
    e.processLiquidations .sorted = .ok x ∧ e.processLiquidations .reversed = .ok y ∧
    (x.2.state.getPosition 2 0).map (·.size.value) = some (-9642600) ∧
    (y.2.state.getPosition 2 0).map (·.size.value) = some (-10000000) := by
  obtain ⟨⟨e, x, y⟩, hrun, htest⟩ := exists_of_test
    (x := twoPasses [.updateLeverage 1 0 50, .deposit 1 300000000, .deposit 2 100000000000,
      .deposit 3 100000000000, .deposit 4 100000000000, .deposit 5 1000000,
      .placeOrder 2 (limitOrder .sell .gtc 6500000000000 10000000) 5,
      .placeOrder 3 (limitOrder .sell .gtc 6500000000000 10000000) 5,
      .placeOrder 1 (limitOrder .buy .gtc 6500000000000 20000000) 6,
      .placeOrder 4 (limitOrder .sell .gtc 100000000 100000) 7,
      .placeOrder 5 (limitOrder .buy .gtc 100000000 100000) 8])
    (p := fun x => decide ((x.2.1.2.state.getPosition 2 0).map (·.size.value) = some (-9642600) ∧
      (x.2.2.2.state.getPosition 2 0).map (·.size.value) = some (-10000000)))
    (by decide +kernel)
  obtain ⟨hx, hy⟩ := of_decide_eq_true htest
  obtain ⟨hreach, h1, h2⟩ := twoPasses_eq_ok hrun
  exact ⟨e, x, y, hreach, h1, h2, hx, hy⟩

/-- Account 1 is in cross mode. Accounts 5 and 6 pay for its deficit; behind them accounts 2
and 3 have equal scores, so that the rankings differ, but nothing is left to be paid. -/
theorem harmless_ties_agree : ∃ (e e₁ e₂ : Engine) (l l' : Liquidations), Reachable e ∧
    e.state.getMarginMode 1 = .cross ∧ adlCandidates .sorted e 0 ≠ adlCandidates .reversed e 0 ∧
    e.processLiquidations .sorted = .ok (l, e₁) ∧
    e.processLiquidations .reversed = .ok (l', e₂) ∧
    (e₁.state.getPosition 6 0).map (·.size.value) = some (-9413900) ∧ l = l' ∧ e₁ = e₂ := by
  obtain ⟨⟨e, ⟨l, e₁⟩, l', e₂⟩, hrun, htest⟩ := exists_of_test
    (x := twoPasses [.setMarginMode 1 .cross, .updateLeverage 1 0 50, .updateLeverage 6 0 50,
      .deposit 1 450000000, .deposit 2 100000000000, .deposit 3 100000000000,
      .deposit 4 100000000000, .deposit 5 1000000, .deposit 6 100000000000,
      .placeOrder 2 (limitOrder .sell .gtc 6500000000000 10000000) 5,
      .placeOrder 3 (limitOrder .sell .gtc 6500000000000 10000000) 5,
      .placeOrder 6 (limitOrder .sell .gtc 6500000000000 10000000) 5,
      .placeOrder 1 (limitOrder .buy .gtc 6500000000000 30000000) 6,
      .placeOrder 4 (limitOrder .sell .gtc 100000000 100000) 7,
      .placeOrder 5 (limitOrder .buy .gtc 100000000 100000) 8])
    (p := fun x => decide (findUnderwaterAccounts .sorted x.1 = .ok [(1, 0)] ∧
      AdlTieFree x.1 (1, 0) ∧ x.1.state.markets.toList.map Prod.fst = [0] ∧
      x.1.state.getMarginMode 1 = .cross ∧
      adlCandidates .sorted x.1 0 ≠ adlCandidates .reversed x.1 0 ∧
      (x.2.1.2.state.getPosition 6 0).map (·.size.value) = some (-9413900))) (by decide +kernel)
  obtain ⟨hpairs, hties, hmarkets, hmode, hranks, hpaid⟩ := of_decide_eq_true htest
  obtain ⟨hreach, hpass, hpass'⟩ := twoPasses_eq_ok hrun
  -- there is one market
  have hworst : WorstUnique e.state := by
    have hzero : ∀ {m market}, e.state.getMarket m = some market → m = 0 := fun {m market} h => by
      have hin :=
        List.mem_map_of_mem (f := Prod.fst) (FinMap.mem_toList (p := (m, market)) |>.mpr h)
      rw [hmarkets] at hin
      exact List.mem_singleton.mp hin
    rintro ord a m m' - - ⟨c, hc, -, rfl, -⟩ ⟨c', hc', -, rfl, -⟩
    rw [hzero hc.market, hzero hc'.market]
  have hfree : TieFree e := by
    refine ⟨hworst, fun ord pairs hfound => ?_⟩
    obtain rfl := findUnderwaterAccounts_eq hreach.marketsFiled hworst hpairs hfound
    exact ⟨hties, fun _ _ _ _ _ => trivial⟩
  exact ⟨e, e₁, e₂, l, l', hreach, hmode, hranks, hpass, hpass', hpaid,
    processLiquidations_deterministic hreach hfree hpass hpass'⟩

end Engine

end Hypercore
