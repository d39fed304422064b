import Hypercore.Primitives.UnifiedState
import Hypercore.Lib.Run
/-!
# Hypercore.Primitives.BalanceSheet

Runs of the eight calls that move balances.

Each call writes one entry, or the entry of a sender and then that of a receiver, and each
write is one of two kinds: it posts an amount to one view and the total, or it moves an amount
from one view to the other. `Posts` says what a write does to the whole sheet, and composes.
-/

namespace Hypercore

open Exec Int128

theorem Decimal.value_le {a b : Decimal} (h : a ≤ b) : a.value ≤ b.value := by
  rw [le_def] at h
  omega

/-! ### One entry -/

namespace UnifiedBalance

/-- The total is the sum of two non-negative views, all on one scale. -/
structure Sound (places : Nat) (b : UnifiedBalance) : Prop where
  total_decimals : b.total.decimals = places
  core_decimals : b.coreView.decimals = places
  evm_decimals : b.evmView.decimals = places
  total_eq : b.total.value = b.coreView.value + b.evmView.value
  core_nonneg : 0 ≤ b.coreView.value
  evm_nonneg : 0 ≤ b.evmView.value
  inRange : InRange b.total.value

variable {places : Nat} {b : UnifiedBalance} {amount c d : Decimal}

theorem sound_new : (new ⟨0, places⟩).Sound places where
  total_decimals := rfl
  core_decimals := rfl
  evm_decimals := rfl
  total_eq := rfl
  core_nonneg := le_refl _
  evm_nonneg := le_refl _
  inRange := (by decide : InRange 0)

/-- A sound balance passes the check of the source. -/
theorem Sound.isValid (h : b.Sound places) : b.isValid = .ok true := by
  have hviews : b.coreView.add b.evmView = .ok b.total := by
    refine Decimal.add_eq_ok.mpr ⟨h.total_eq ▸ h.inRange, ?_⟩
    rw [← h.total_eq, h.core_decimals, ← h.total_decimals]
  unfold UnifiedBalance.isValid
  rw [hviews, ok_bind]
  simp only [decide_true]
  rfl

theorem Sound.addCore (h : b.Sound places) (hpos : 0 ≤ amount.value)
    (hc : b.total.add amount = .ok c) (hd : b.coreView.add amount = .ok d) :
    Sound places { b with total := c, coreView := d } := by
  obtain ⟨hrange, rfl⟩ := Decimal.add_eq_ok.mp hc
  obtain ⟨-, rfl⟩ := Decimal.add_eq_ok.mp hd
  have htotal := h.total_eq
  exact ⟨h.total_decimals, h.core_decimals, h.evm_decimals, by dsimp only; omega,
    Int.add_nonneg h.core_nonneg hpos, h.evm_nonneg, hrange⟩

theorem Sound.addEvm (h : b.Sound places) (hpos : 0 ≤ amount.value)
    (hc : b.total.add amount = .ok c) (hd : b.evmView.add amount = .ok d) :
    Sound places { b with total := c, evmView := d } := by
  obtain ⟨hrange, rfl⟩ := Decimal.add_eq_ok.mp hc
  obtain ⟨-, rfl⟩ := Decimal.add_eq_ok.mp hd
  have htotal := h.total_eq
  exact ⟨h.total_decimals, h.core_decimals, h.evm_decimals, by dsimp only; omega,
    h.core_nonneg, Int.add_nonneg h.evm_nonneg hpos, hrange⟩

theorem Sound.subCore (h : b.Sound places) (hle : amount.value ≤ b.coreView.value)
    (hc : b.total.sub amount = .ok c) (hd : b.coreView.sub amount = .ok d) :
    Sound places { b with total := c, coreView := d } := by
  obtain ⟨hrange, rfl⟩ := Decimal.sub_eq_ok.mp hc
  obtain ⟨-, rfl⟩ := Decimal.sub_eq_ok.mp hd
  have htotal := h.total_eq
  exact ⟨h.total_decimals, h.core_decimals, h.evm_decimals, by dsimp only; omega,
    Int.sub_nonneg_of_le hle, h.evm_nonneg, hrange⟩

theorem Sound.subEvm (h : b.Sound places) (hle : amount.value ≤ b.evmView.value)
    (hc : b.total.sub amount = .ok c) (hd : b.evmView.sub amount = .ok d) :
    Sound places { b with total := c, evmView := d } := by
  obtain ⟨hrange, rfl⟩ := Decimal.sub_eq_ok.mp hc
  obtain ⟨-, rfl⟩ := Decimal.sub_eq_ok.mp hd
  have htotal := h.total_eq
  exact ⟨h.total_decimals, h.core_decimals, h.evm_decimals, by dsimp only; omega,
    h.core_nonneg, Int.sub_nonneg_of_le hle, hrange⟩

theorem Sound.toEvm (h : b.Sound places) (hpos : 0 ≤ amount.value)
    (hle : amount.value ≤ b.coreView.value)
    (hc : b.coreView.sub amount = .ok c) (hd : b.evmView.add amount = .ok d) :
    Sound places { b with coreView := c, evmView := d } := by
  obtain ⟨-, rfl⟩ := Decimal.sub_eq_ok.mp hc
  obtain ⟨-, rfl⟩ := Decimal.add_eq_ok.mp hd
  have htotal := h.total_eq
  exact ⟨h.total_decimals, h.core_decimals, h.evm_decimals, by dsimp only; omega,
    Int.sub_nonneg_of_le hle, Int.add_nonneg h.evm_nonneg hpos, h.inRange⟩

theorem Sound.toCore (h : b.Sound places) (hpos : 0 ≤ amount.value)
    (hle : amount.value ≤ b.evmView.value)
    (hc : b.evmView.sub amount = .ok c) (hd : b.coreView.add amount = .ok d) :
    Sound places { b with coreView := d, evmView := c } := by
  obtain ⟨-, rfl⟩ := Decimal.sub_eq_ok.mp hc
  obtain ⟨-, rfl⟩ := Decimal.add_eq_ok.mp hd
  have htotal := h.total_eq
  exact ⟨h.total_decimals, h.core_decimals, h.evm_decimals, by dsimp only; omega,
    Int.add_nonneg h.core_nonneg hpos, Int.sub_nonneg_of_le hle, h.inRange⟩

end UnifiedBalance

/-! ### The whole sheet -/

/-- Every entry is sound, on the scale of its token. -/
def UnifiedState.Balanced (scale : TokenIndex → Nat) (u : UnifiedState) : Prop :=
  ∀ user token b, u.getBalance user token = some b → b.Sound (scale token)

/-- The total of a user and token. -/
def UnifiedState.getTotal (u : UnifiedState) (user : AccountAddress) (token : TokenIndex) :
    Decimal :=
  match u.getBalance user token with
  | some b => b.total
  | none => ⟨0, tokenDecimals token⟩

/-- The sum of the totals of a token. -/
def UnifiedState.totals (u : UnifiedState) (token : TokenIndex) : Int :=
  FinMap.total (fun key b => if key.snd = token then b.total.value else 0) u.balances

namespace UnifiedState

variable {scale : TokenIndex → Nat} {u u' w : UnifiedState} {user sender receiver : AccountAddress}
  {token : TokenIndex} {amount : Decimal} {b : UnifiedBalance} {r : Bool} {δ ε : Int}

theorem balanced_new : (new).Balanced scale := by
  intro user token b hb
  unfold getBalance new at hb
  rw [FinMap.get_empty] at hb
  cases hb

theorem Balanced.entryFor (h : u.Balanced scale) (hamount : amount.decimals = scale token) :
    (u.entryFor user token amount).Sound (scale token) := by
  unfold UnifiedState.entryFor
  cases hb : u.getBalance user token with
  | none =>
    rw [hamount]
    exact UnifiedBalance.sound_new
  | some b => exact h user token b hb

theorem Balanced.setBalance (h : u.Balanced scale) (hb : b.Sound (scale token)) :
    (u.setBalance user token b).Balanced scale := by
  intro other k c hc
  rw [getBalance_setBalance] at hc
  split at hc
  · rename_i hkey
    obtain ⟨-, rfl⟩ := hkey
    obtain rfl := Option.some.inj hc
    exact hb
  · exact h other k c hc

theorem entryFor_getTotal (u : UnifiedState) (user : AccountAddress) (token : TokenIndex)
    (amount : Decimal) :
    (u.entryFor user token amount).total.value = (u.getTotal user token).value := by
  unfold UnifiedState.entryFor getTotal
  cases u.getBalance user token <;> rfl

theorem getTotal_of_getBalance (hb : u.getBalance user token = some b) :
    u.getTotal user token = b.total := by
  unfold getTotal
  rw [hb]

/-- **Update rule.** Writing an entry moves a sum over the entries of its token by the
difference. -/
theorem sum_setBalance {M : Type} [AddCommGroup M] (f : UnifiedBalance → M) (c : UnifiedBalance)
    (k : TokenIndex) :
    FinMap.total (fun key b => if key.snd = k then f b else 0)
        (u.setBalance user token c).balances =
      FinMap.total (fun key b => if key.snd = k then f b else 0) u.balances +
        if token = k then f c - ((u.getBalance user token).map f).getD 0 else 0 := by
  have hweight : FinMap.weight (fun key (b : UnifiedBalance) =>
      if key.snd = k then f b else 0) u.balances ⟨user, token⟩ =
      if token = k then ((u.getBalance user token).map f).getD 0 else 0 := by
    unfold FinMap.weight getBalance
    cases u.balances[(⟨user, token⟩ : PairKey AccountAddress TokenIndex)]? with
    | none => simp
    | some b => rfl
  unfold UnifiedState.setBalance
  dsimp only
  rw [FinMap.total_insert, hweight]
  dsimp only
  split
  · abel
  · abel

theorem totals_setBalance (c : UnifiedBalance) (k : TokenIndex) :
    (u.setBalance user token c).totals k = u.totals k +
      if token = k then c.total.value - (u.getTotal user token).value else 0 := by
  unfold totals
  rw [sum_setBalance fun b => b.total.value]
  unfold getTotal
  cases u.getBalance user token <;> rfl

/-- A step keeps the sheet balanced, and moves the totals of one token by `δ`. -/
structure Posts (scale : TokenIndex → Nat) (token : TokenIndex) (δ : Int) (u u' : UnifiedState) :
    Prop where
  balanced : u'.Balanced scale
  totals : ∀ k, u'.totals k = u.totals k + if token = k then δ else 0

theorem Posts.refl (h : u.Balanced scale) : Posts scale token 0 u u :=
  ⟨h, fun k => by rw [ite_self, add_zero]⟩

theorem Posts.trans (h : Posts scale token δ u u') (h' : Posts scale token ε u' w) :
    Posts scale token (δ + ε) u w := by
  refine ⟨h'.balanced, fun k => ?_⟩
  rw [h'.totals, h.totals]
  split <;> omega

/-- A sound entry in place of the old one. -/
theorem Balanced.posts (h : u.Balanced scale) {c : UnifiedBalance} (hc : c.Sound (scale token))
    (hδ : c.total.value = (u.getTotal user token).value + δ) :
    Posts scale token δ u (u.setBalance user token c) := by
  refine ⟨h.setBalance hc, fun k => ?_⟩
  rw [totals_setBalance, hδ]
  split <;> omega

/-- An entry whose total stays. -/
theorem Balanced.posts_zero (h : u.Balanced scale) (hb : u.getBalance user token = some b)
    {c : UnifiedBalance} (hc : c.Sound (scale token)) (htotal : c.total = b.total) :
    Posts scale token 0 u (u.setBalance user token c) := by
  refine h.posts hc ?_
  rw [getTotal_of_getBalance hb, htotal, add_zero]

/-! ### Posting to one view -/

theorem credit_posts (h : u.Balanced scale) (hpos : 0 ≤ amount.value)
    (hscale : amount.decimals = scale token) (hret : u.credit user token amount = .ok u') :
    Posts scale token amount.value u u' := by
  obtain ⟨total, htotal, hret⟩ := bind_inv hret
  obtain ⟨core, hcore, hret⟩ := bind_inv hret
  obtain rfl := pure_inv hret
  refine h.posts ((h.entryFor hscale).addCore hpos htotal hcore) ?_
  rw [(Decimal.add_eq_ok.mp htotal).2, ← entryFor_getTotal u user token amount]

theorem creditEvm_posts (h : u.Balanced scale) (hpos : 0 ≤ amount.value)
    (hscale : amount.decimals = scale token) (hret : u.creditEvm user token amount = .ok u') :
    Posts scale token amount.value u u' := by
  obtain ⟨total, htotal, hret⟩ := bind_inv hret
  obtain ⟨evm, hevm, hret⟩ := bind_inv hret
  obtain rfl := pure_inv hret
  refine h.posts ((h.entryFor hscale).addEvm hpos htotal hevm) ?_
  rw [(Decimal.add_eq_ok.mp htotal).2, ← entryFor_getTotal u user token amount]

/-- The entry of a sender, less an amount of its core view. -/
theorem subCore_posts (h : u.Balanced scale) (hb : u.getBalance user token = some b)
    (hle : amount.value ≤ b.coreView.value) {c d : Decimal}
    (hc : b.total.sub amount = .ok c) (hd : b.coreView.sub amount = .ok d) :
    Posts scale token (-amount.value) u
      (u.setBalance user token { b with total := c, coreView := d }) := by
  refine h.posts ((h user token b hb).subCore hle hc hd) ?_
  rw [getTotal_of_getBalance hb, (Decimal.sub_eq_ok.mp hc).2]
  rfl

theorem subEvm_posts (h : u.Balanced scale) (hb : u.getBalance user token = some b)
    (hle : amount.value ≤ b.evmView.value) {c d : Decimal}
    (hc : b.total.sub amount = .ok c) (hd : b.evmView.sub amount = .ok d) :
    Posts scale token (-amount.value) u
      (u.setBalance user token { b with total := c, evmView := d }) := by
  refine h.posts ((h user token b hb).subEvm hle hc hd) ?_
  rw [getTotal_of_getBalance hb, (Decimal.sub_eq_ok.mp hc).2]
  rfl

end UnifiedState

/-! ### Calls -/

/-- A call of one of the operations that move balances. -/
inductive SheetCall
  | credit (user : AccountAddress) (token : TokenIndex) (amount : Decimal)
  | creditEvm (user : AccountAddress) (token : TokenIndex) (amount : Decimal)
  | debitCore (user : AccountAddress) (token : TokenIndex) (amount : Decimal)
  | debitEvm (user : AccountAddress) (token : TokenIndex) (amount : Decimal)
  | transferToEvmView (user : AccountAddress) (token : TokenIndex) (amount : Decimal)
  | transferToCoreView (user : AccountAddress) (token : TokenIndex) (amount : Decimal)
  | transferCore (sender receiver : AccountAddress) (token : TokenIndex) (amount : Decimal)
  | transferEvm (sender receiver : AccountAddress) (token : TokenIndex) (amount : Decimal)

namespace SheetCall

/-- Make the call: whether it succeeded, and the sheet it leaves. -/
def run (u : UnifiedState) : SheetCall → Exec (Bool × UnifiedState)
  | credit user token amount => do return (true, ← u.credit user token amount)
  | creditEvm user token amount => do return (true, ← u.creditEvm user token amount)
  | debitCore user token amount => u.debitCore user token amount
  | debitEvm user token amount => u.debitEvm user token amount
  | transferToEvmView user token amount => do
    let (r, u') ← u.transferToEvmView user token amount
    return (r.isOk, u')
  | transferToCoreView user token amount => do
    let (r, u') ← u.transferToCoreView user token amount
    return (r.isOk, u')
  | transferCore sender receiver token amount => u.transferCore sender receiver token amount
  | transferEvm sender receiver token amount => u.transferEvm sender receiver token amount

/-- The sheet a call leaves. -/
def step (call : SheetCall) (u : UnifiedState) : Exec UnifiedState := Prod.snd <$> call.run u

/-- The token a call is about. -/
def token : SheetCall → TokenIndex
  | credit _ token _ | creditEvm _ token _ | debitCore _ token _ | debitEvm _ token _
  | transferToEvmView _ token _ | transferToCoreView _ token _
  | transferCore _ _ token _ | transferEvm _ _ token _ => token

/-- The amount a call is made with. -/
def amount : SheetCall → Decimal
  | credit _ _ amount | creditEvm _ _ amount | debitCore _ _ amount | debitEvm _ _ amount
  | transferToEvmView _ _ amount | transferToCoreView _ _ amount
  | transferCore _ _ _ amount | transferEvm _ _ _ amount => amount

/-- What a call that succeeds adds to the totals of its token: a credit its amount, a debit
takes it away, and a transfer of either kind adds nothing. -/
def adds : SheetCall → Int
  | credit _ _ amount | creditEvm _ _ amount => amount.value
  | debitCore _ _ amount | debitEvm _ _ amount => -amount.value
  | transferToEvmView .. | transferToCoreView .. | transferCore .. | transferEvm .. => 0

/-- The amount is not negative, and on the scale of the token. -/
def Scaled (scale : TokenIndex → Nat) (call : SheetCall) : Prop :=
  0 ≤ call.amount.value ∧ call.amount.decimals = scale call.token

instance (scale : TokenIndex → Nat) (call : SheetCall) : Decidable (call.Scaled scale) :=
  inferInstanceAs (Decidable (_ ∧ _))

/-- A call succeeds and posts what it adds, or fails and leaves the sheet. -/
def Settles (scale : TokenIndex → Nat) (call : SheetCall) (u : UnifiedState) (r : Bool)
    (u' : UnifiedState) : Prop :=
  (r = false ∧ u' = u) ∨ (r = true ∧ UnifiedState.Posts scale call.token call.adds u u')

/-! ### Each call settles -/

variable {scale : TokenIndex → Nat} {u u' : UnifiedState} {user sender receiver : AccountAddress}
  {token : TokenIndex} {amount : Decimal} {r : Bool} {call : SheetCall}

theorem debitCore_settles (h : u.Balanced scale)
    (hret : u.debitCore user token amount = .ok (r, u')) :
    (debitCore user token amount).Settles scale u r u' := by
  unfold UnifiedState.debitCore at hret
  split at hret
  · obtain ⟨rfl, rfl⟩ := pair_inv hret
    exact .inl ⟨rfl, rfl⟩
  · rename_i b hb
    split at hret
    · rename_i hle
      obtain ⟨total, htotal, hret⟩ := bind_inv hret
      obtain ⟨core, hcore, hret⟩ := bind_inv hret
      obtain ⟨rfl, rfl⟩ := pair_inv hret
      exact .inr ⟨rfl, UnifiedState.subCore_posts h hb (Decimal.value_le hle) htotal hcore⟩
    · obtain ⟨rfl, rfl⟩ := pair_inv hret
      exact .inl ⟨rfl, rfl⟩

theorem debitEvm_settles (h : u.Balanced scale)
    (hret : u.debitEvm user token amount = .ok (r, u')) :
    (debitEvm user token amount).Settles scale u r u' := by
  unfold UnifiedState.debitEvm at hret
  split at hret
  · obtain ⟨rfl, rfl⟩ := pair_inv hret
    exact .inl ⟨rfl, rfl⟩
  · rename_i b hb
    split at hret
    · rename_i hle
      obtain ⟨total, htotal, hret⟩ := bind_inv hret
      obtain ⟨evm, hevm, hret⟩ := bind_inv hret
      obtain ⟨rfl, rfl⟩ := pair_inv hret
      exact .inr ⟨rfl, UnifiedState.subEvm_posts h hb (Decimal.value_le hle) htotal hevm⟩
    · obtain ⟨rfl, rfl⟩ := pair_inv hret
      exact .inl ⟨rfl, rfl⟩

theorem transferToEvmView_settles (h : u.Balanced scale) (hpos : 0 ≤ amount.value)
    (hret : (transferToEvmView user token amount).run u = .ok (r, u')) :
    (transferToEvmView user token amount).Settles scale u r u' := by
  obtain ⟨⟨res, w⟩, hcall, hret⟩ := bind_inv hret
  obtain ⟨rfl, rfl⟩ := pair_inv hret
  unfold UnifiedState.transferToEvmView at hcall
  split at hcall
  · obtain ⟨rfl, rfl⟩ := pair_inv hcall
    exact .inl ⟨rfl, rfl⟩
  · rename_i b hb
    split at hcall
    · obtain ⟨rfl, rfl⟩ := pair_inv hcall
      exact .inl ⟨rfl, rfl⟩
    · rename_i hlt
      obtain ⟨core, hcore, hcall⟩ := bind_inv hcall
      obtain ⟨evm, hevm, hcall⟩ := bind_inv hcall
      obtain ⟨rfl, rfl⟩ := pair_inv hcall
      have hle := Decimal.value_le (Decimal.not_lt.mp hlt)
      have hsound := (h user token b hb).toEvm hpos hle hcore hevm
      exact .inr ⟨rfl, h.posts_zero hb hsound rfl⟩

theorem transferToCoreView_settles (h : u.Balanced scale) (hpos : 0 ≤ amount.value)
    (hret : (transferToCoreView user token amount).run u = .ok (r, u')) :
    (transferToCoreView user token amount).Settles scale u r u' := by
  obtain ⟨⟨res, w⟩, hcall, hret⟩ := bind_inv hret
  obtain ⟨rfl, rfl⟩ := pair_inv hret
  unfold UnifiedState.transferToCoreView at hcall
  split at hcall
  · obtain ⟨rfl, rfl⟩ := pair_inv hcall
    exact .inl ⟨rfl, rfl⟩
  · rename_i b hb
    split at hcall
    · obtain ⟨rfl, rfl⟩ := pair_inv hcall
      exact .inl ⟨rfl, rfl⟩
    · rename_i hlt
      obtain ⟨evm, hevm, hcall⟩ := bind_inv hcall
      obtain ⟨core, hcore, hcall⟩ := bind_inv hcall
      obtain ⟨rfl, rfl⟩ := pair_inv hcall
      have hle := Decimal.value_le (Decimal.not_lt.mp hlt)
      have hsound := (h user token b hb).toCore hpos hle hevm hcore
      exact .inr ⟨rfl, h.posts_zero hb hsound rfl⟩

/-- A sender without an entry counts as holding zero, so only zero can come from it. -/
theorem transferCore_settles (h : u.Balanced scale) (hpos : 0 ≤ amount.value)
    (hscale : amount.decimals = scale token)
    (hret : u.transferCore sender receiver token amount = .ok (r, u')) :
    (transferCore sender receiver token amount).Settles scale u r u' := by
  unfold UnifiedState.transferCore at hret
  dsimp only at hret
  split at hret
  · obtain ⟨rfl, rfl⟩ := pair_inv hret
    exact .inl ⟨rfl, rfl⟩
  · rename_i hlt
    have hle := Decimal.value_le (Decimal.not_lt.mp hlt)
    obtain ⟨v, hdebit, hret⟩ := bind_inv hret
    obtain ⟨w, hcredit, hret⟩ := bind_inv hret
    obtain ⟨rfl, rfl⟩ := pair_inv hret
    have hpost : UnifiedState.Posts scale token (-amount.value) u v := by
      split at hdebit
      · rename_i hb
        obtain rfl := pure_inv hdebit
        rw [hb] at hle
        have hzero : amount.value = 0 := le_antisymm hle hpos
        rw [hzero, neg_zero]
        exact .refl h
      · rename_i b hb
        obtain ⟨total, htotal, hdebit⟩ := bind_inv hdebit
        obtain ⟨core, hcore, hdebit⟩ := bind_inv hdebit
        obtain rfl := pure_inv hdebit
        rw [hb] at hle
        exact UnifiedState.subCore_posts h hb hle htotal hcore
    have hpost' := hpost.trans (UnifiedState.credit_posts hpost.balanced hpos hscale hcredit)
    rw [neg_add_cancel] at hpost'
    exact .inr ⟨rfl, hpost'⟩

theorem transferEvm_settles (h : u.Balanced scale) (hpos : 0 ≤ amount.value)
    (hscale : amount.decimals = scale token)
    (hret : u.transferEvm sender receiver token amount = .ok (r, u')) :
    (transferEvm sender receiver token amount).Settles scale u r u' := by
  unfold UnifiedState.transferEvm at hret
  dsimp only at hret
  split at hret
  · obtain ⟨rfl, rfl⟩ := pair_inv hret
    exact .inl ⟨rfl, rfl⟩
  · rename_i hlt
    have hle := Decimal.value_le (Decimal.not_lt.mp hlt)
    obtain ⟨v, hdebit, hret⟩ := bind_inv hret
    obtain ⟨w, hcredit, hret⟩ := bind_inv hret
    obtain ⟨rfl, rfl⟩ := pair_inv hret
    have hpost : UnifiedState.Posts scale token (-amount.value) u v := by
      split at hdebit
      · rename_i hb
        obtain rfl := pure_inv hdebit
        rw [hb] at hle
        have hzero : amount.value = 0 := le_antisymm hle hpos
        rw [hzero, neg_zero]
        exact .refl h
      · rename_i b hb
        obtain ⟨total, htotal, hdebit⟩ := bind_inv hdebit
        obtain ⟨evm, hevm, hdebit⟩ := bind_inv hdebit
        obtain rfl := pure_inv hdebit
        rw [hb] at hle
        exact UnifiedState.subEvm_posts h hb hle htotal hevm
    have hpost' := hpost.trans (UnifiedState.creditEvm_posts hpost.balanced hpos hscale hcredit)
    rw [neg_add_cancel] at hpost'
    exact .inr ⟨rfl, hpost'⟩

/-- **Step.** On a balanced sheet every call settles. -/
theorem run_settles (h : u.Balanced scale) (hcall : call.Scaled scale)
    (hret : call.run u = .ok (r, u')) : call.Settles scale u r u' := by
  obtain ⟨hpos, hscale⟩ := hcall
  cases call with
  | credit user token amount =>
    obtain ⟨w, hw, hret⟩ := bind_inv hret
    obtain ⟨rfl, rfl⟩ := pair_inv hret
    exact .inr ⟨rfl, UnifiedState.credit_posts h hpos hscale hw⟩
  | creditEvm user token amount =>
    obtain ⟨w, hw, hret⟩ := bind_inv hret
    obtain ⟨rfl, rfl⟩ := pair_inv hret
    exact .inr ⟨rfl, UnifiedState.creditEvm_posts h hpos hscale hw⟩
  | debitCore user token amount => exact debitCore_settles h hret
  | debitEvm user token amount => exact debitEvm_settles h hret
  | transferToEvmView user token amount => exact transferToEvmView_settles h hpos hret
  | transferToCoreView user token amount => exact transferToCoreView_settles h hpos hret
  | transferCore sender receiver token amount => exact transferCore_settles h hpos hscale hret
  | transferEvm sender receiver token amount => exact transferEvm_settles h hpos hscale hret

theorem Settles.balanced (h : call.Settles scale u r u') (hu : u.Balanced scale) :
    u'.Balanced scale := by
  rcases h with ⟨-, rfl⟩ | ⟨-, hposts⟩
  · exact hu
  · exact hposts.balanced

end SheetCall

/-! ### Runs -/

namespace UnifiedState

variable {scale : TokenIndex → Nat} {u : UnifiedState}

/-- The sheets that calls at the scale of each token lead to. -/
def SheetReachable (scale : TokenIndex → Nat) (u : UnifiedState) : Prop :=
  Run.Reaches SheetCall.step (fun _ call => call.Scaled scale) .new u

/-- **Run.** Every sheet that is reached is balanced. -/
theorem SheetReachable.balanced (h : u.SheetReachable scale) : u.Balanced scale := by
  refine h.invariant balanced_new ?_
  intro u call u' hu hcall hstep
  obtain ⟨⟨r, w⟩, hrun, rfl⟩ := map_eq_ok.mp hstep
  exact (SheetCall.run_settles hu hcall hrun).balanced hu

/-- **Balance sheet.** After any run of calls every balance is the sum of two non-negative views,
and the next call changes the sums of the totals by what it adds, or nothing at all. A call fails
and leaves the sheet, or posts its amount to one token (`Settles`), and entries stay `Sound`. -/
theorem SheetReachable.balance_sheet (h : u.SheetReachable scale) :
    (∀ user token b, u.getBalance user token = some b →
      b.isValid = .ok true ∧ b.total.value = b.coreView.value + b.evmView.value ∧
        0 ≤ b.coreView.value ∧ 0 ≤ b.evmView.value) ∧
    ∀ (call : SheetCall) r u', call.Scaled scale → call.run u = .ok (r, u') →
      (r = false → u' = u) ∧
      (r = true → ∀ k, u'.totals k = u.totals k + if call.token = k then call.adds else 0) := by
  refine ⟨fun user token b hb => ?_, fun call r u' hcall hrun => ?_⟩
  · have hsound := h.balanced user token b hb
    exact ⟨hsound.isValid, hsound.total_eq, hsound.core_nonneg, hsound.evm_nonneg⟩
  · rcases SheetCall.run_settles h.balanced hcall hrun with ⟨rfl, rfl⟩ | ⟨rfl, hposts⟩
    · exact ⟨fun _ => rfl, nofun⟩
    · exact ⟨nofun, fun _ => hposts.totals⟩

/-- A deposit, a move to the EVM view and a payment to oneself. -/
def selfPayment : List SheetCall :=
  [.credit 1 0 ⟨100, 6⟩, .transferToEvmView 1 0 ⟨40, 6⟩, .transferEvm 1 1 0 ⟨15, 6⟩]

theorem balance_sheet_selfPayment : ∃ u u',
    selfPayment.foldlM (fun u call => call.step u) .new = .ok u ∧
    (SheetCall.transferCore 1 2 0 ⟨60, 6⟩).run u = .ok (true, u') ∧
    u'.totals 0 = u.totals 0 + 0 := by
  obtain ⟨⟨u, r, u'⟩, hx, hr⟩ := Exec.exists_of_test
    (x := do
      let u ← selfPayment.foldlM (fun u call => call.step u) .new
      let p ← (SheetCall.transferCore 1 2 0 ⟨60, 6⟩).run u
      return (u, p))
    (p := fun x => x.2.1) (by decide +kernel)
  obtain ⟨u, hu, hx⟩ := bind_inv hx
  obtain ⟨p, hp, hx⟩ := bind_inv hx
  obtain ⟨rfl, rfl⟩ := pair_inv hx
  obtain rfl : r = true := hr
  have hscaled : ∀ call ∈ selfPayment, call.Scaled fun _ => 6 := by decide
  have hreach : u.SheetReachable fun _ => 6 :=
    .of_foldlM (fun call hcall _ => hscaled call hcall) hu
  exact ⟨u, u', hu, hp, (hreach.balance_sheet.2 _ _ _ (by decide) hp).2 rfl 0⟩

end UnifiedState

end Hypercore
