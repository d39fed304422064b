import Hypercore.Chain.Run
import Hypercore.Primitives.Word
/-!
# Hypercore.Chain.EvmActions

Actions that contracts queue for the core: how much they move between the two views of an
account, and what the spot engine would have moved.

The payload has an amount as a word of 256 bits, in 18 decimals. It is narrowed through two
halves of 128 bits, and brought to six decimals for USDC and to 18 for any other token, whatever
the scale of the token is. The move itself goes to the balance sheet directly, past the spot
engine and its reserves.
-/

namespace Hypercore

open Exec Int128 AppState

/-! ### Amounts -/

/-- The amount of a payload at a scale, rounded down. -/
def EvmAction.amountAt (data : List UInt8) (scale : Nat) : Nat :=
  wordAt data 32 * 10 ^ scale / 10 ^ 18

/-- The word of a payload is read as it is: it fits an `i128`, and the scale it is brought to is
the token's or too coarse for the word in either. From 2^128 on, where it is read as the
largest `i128`, that has to be the amount by chance. -/
def EvmAction.ReadsExactly (data : List UInt8) (readScale scale : Nat) : Prop :=
  (wordAt data 32 < 2 ^ 127 ∧
      (scale = readScale ∨ wordAt data 32 * 10 ^ max readScale scale < 10 ^ 18)) ∨
    (2 ^ 128 ≤ wordAt data 32 ∧
      EvmAction.amountAt data scale = (2 ^ 127 - 1) * 10 ^ readScale / 10 ^ 18)

section Floor

variable {x n m : Nat}

/-- A number and a proper multiple of it have the same quotient only if both are zero. -/
theorem mul_div_eq_div_iff (hn : 0 < n) (hm : 2 ≤ m) : x * m / n = x / n ↔ x * m < n := by
  constructor
  · intro h
    have hmul : x / n * m ≤ x * m / n := by
      rw [Nat.le_div_iff_mul_le hn]
      calc x / n * m * n = x / n * n * m := by ring
        _ ≤ x * m := Nat.mul_le_mul_right m (Nat.div_mul_le_self x n)
    have hzero : x / n = 0 := by
      rw [h] at hmul
      by_contra hne
      have htwo : x / n * 2 ≤ x / n * m := Nat.mul_le_mul_left _ hm
      omega
    rw [hzero, Nat.div_eq_zero_iff] at h
    omega
  · intro h
    have hx : x < n := lt_of_le_of_lt (Nat.le_mul_of_pos_right x (by omega)) h
    rw [Nat.div_eq_of_lt h, Nat.div_eq_of_lt hx]

/-- Amounts at two scales. -/
theorem scaled_eq_iff (hn : 0 < n) (a b : Nat) :
    x * 10 ^ a / n = x * 10 ^ b / n ↔ a = b ∨ x * 10 ^ max a b < n := by
  have hlt : ∀ {a b : Nat}, a < b → (x * 10 ^ b / n = x * 10 ^ a / n ↔ x * 10 ^ b < n) := by
    intro a b hab
    have hpow : 10 ^ b = 10 ^ a * 10 ^ (b - a) := by
      rw [← pow_add, Nat.add_sub_cancel' hab.le]
    have hten : 2 ≤ 10 ^ (b - a) := by
      calc 2 ≤ 10 ^ 1 := by norm_num
        _ ≤ 10 ^ (b - a) := Nat.pow_le_pow_right (by norm_num) (by omega)
    rw [hpow, ← Nat.mul_assoc]
    exact mul_div_eq_div_iff hn hten
  rcases Nat.lt_trichotomy a b with hab | hab | hab
  · rw [max_eq_right hab.le, eq_comm, hlt hab]
    simp [hab.ne]
  · simp [hab]
  · rw [max_eq_left hab.le, hlt hab]
    simp [hab.ne']

end Floor

namespace EvmAction

variable {data : List UInt8} {scale readScale : Nat}

/-- The raw amount of a payload, in terms of its word. -/
theorem evmPayload_word (h : 64 ≤ data.length) :
    (evmPayload data).2 = if 2 ^ 128 ≤ wordAt data 32 then 2 ^ 127 - 1
      else ofU128 (wordAt data 32) := by
  have hfits : 32 + 32 ≤ data.length := h
  obtain ⟨hhigh, hlow⟩ := wordAt_halves hfits
  have hpayload : (evmPayload data).2 =
      if ofBeBytes ((data.drop 32).take 16) > 0 then 2 ^ 127 - 1
      else ofU128 (ofBeBytes ((data.drop 48).take 16)) := rfl
  rw [hpayload, hhigh, hlow]
  by_cases hlarge : 2 ^ 128 ≤ wordAt data 32
  · rw [if_pos hlarge, if_pos (Nat.div_pos hlarge (by norm_num))]
  · rw [if_neg hlarge, if_neg (by omega), Nat.mod_eq_of_lt (by omega)]

/-- **Reading.** What the code makes of the word is the amount at the token's scale exactly when
the word is read as it is. -/
theorem read_iff (h : 64 ≤ data.length) (hscale : readScale = 6 ∨ readScale = 18) :
    ((evmPayload data).2.tdiv (10 ^ (18 - readScale)) = (amountAt data scale : Int)) ↔
      ReadsExactly data readScale scale := by
  have hsplit : (10 : Nat) ^ 18 = 10 ^ readScale * 10 ^ (18 - readScale) := by
    rw [← pow_add]
    congr 1
    omega
  have hdown : ∀ x : Nat, x / 10 ^ (18 - readScale) = x * 10 ^ readScale / 10 ^ 18 := by
    intro x
    rw [hsplit, Nat.mul_comm x, Nat.mul_div_mul_left _ _ (by positivity)]
  have hquot : ∀ x : Nat, (x : Int).tdiv (10 ^ (18 - readScale)) =
      ((x * 10 ^ readScale / 10 ^ 18 : Nat) : Int) := by
    intro x
    rw [← hdown]
    have hpow : ((10 : Int) ^ (18 - readScale)) = ((10 ^ (18 - readScale) : Nat) : Int) := by
      push_cast
      rfl
    rw [hpow, ← Int.ofNat_tdiv]
  rw [evmPayload_word h]
  unfold ReadsExactly
  by_cases hlarge : 2 ^ 128 ≤ wordAt data 32
  · have hmax : ((2 : Int) ^ 127 - 1) = ((2 ^ 127 - 1 : Nat) : Int) := by norm_num
    rw [if_pos hlarge, hmax, hquot, Int.natCast_inj]
    constructor
    · exact fun heq => .inr ⟨hlarge, heq.symm⟩
    · rintro (⟨hsmall, -⟩ | ⟨-, heq⟩)
      · omega
      · exact heq.symm
  · rw [if_neg hlarge]
    unfold ofU128
    split
    · next hsmall =>
      have hiff := @scaled_eq_iff (wordAt data 32) (10 ^ 18) (by norm_num) readScale scale
      rw [hquot, Int.natCast_inj]
      unfold amountAt
      rw [hiff, @eq_comm _ readScale]
      exact ⟨fun hscales => .inl ⟨hsmall, hscales⟩,
        fun hread => hread.elim (·.2) fun habove => absurd habove.1 hlarge⟩
    · next hnegative =>
      -- what is read is negative, and the amount is not even zero
      have hpos : 0 < amountAt data scale := by
        refine Nat.div_pos ?_ (by norm_num)
        calc 10 ^ 18 ≤ wordAt data 32 := by omega
          _ ≤ wordAt data 32 * 10 ^ scale := Nat.le_mul_of_pos_right _ (by positivity)
      have hread := @Int.tdiv_nonneg (-((wordAt data 32 : Int) - 2 ^ 128)) (10 ^ (18 - readScale))
        (by omega) (by positivity)
      rw [Int.neg_tdiv] at hread
      constructor
      · intro heq
        omega
      · rintro (⟨hsmall, -⟩ | ⟨habove, -⟩)
        · omega
        · omega

/-- Where an action moves its amount, to the EVM view or away from it. -/
def direction (actionType : UInt8) : Option Bool :=
  if actionType = 0 ∨ actionType = 3 then some false
  else if actionType = 1 ∨ actionType = 2 then some true
  else none

/-- The token of a payload. -/
def token (data : List UInt8) : TokenIndex := (evmPayload data).1

end EvmAction

/-! ### Moves between the views -/

namespace UnifiedState

/-- The view that an amount is taken from. -/
def payingView (u : UnifiedState) (user : AccountAddress) (token : TokenIndex) (toEvm : Bool) :
    Decimal :=
  if toEvm then u.getCoreView user token else u.getEvmView user token

/-- A move between the views of one account. -/
def transferView (u : UnifiedState) (user : AccountAddress) (token : TokenIndex)
    (amount : Decimal) (toEvm : Bool) : Exec (Except ViewTransferError Unit × UnifiedState) :=
  if toEvm then u.transferToEvmView user token amount else u.transferToCoreView user token amount

/-- An entry of which `δ` goes from the core view to the EVM view. -/
def shifted (b : UnifiedBalance) (δ : Int) : UnifiedBalance :=
  { b with
    coreView := ⟨b.coreView.value - δ, b.coreView.decimals⟩
    evmView := ⟨b.evmView.value + δ, b.evmView.decimals⟩ }

/-- What goes to the EVM view in a move. -/
def toward (toEvm : Bool) (amount : Int) : Int := if toEvm then amount else -amount

variable {u u' : UnifiedState} {user : AccountAddress} {token : TokenIndex} {amount : Decimal}
  {toEvm : Bool} {b : UnifiedBalance}

theorem payingView_of_getBalance (hb : u.getBalance user token = some b) :
    u.payingView user token toEvm = if toEvm then b.coreView else b.evmView := by
  unfold payingView UnifiedState.getCoreView UnifiedState.getEvmView
  rw [hb]

/-- **One move.** It succeeds when there is an entry, its paying view is not below the amount,
and both views stay in range. -/
theorem transferView_eq_ok :
    u.transferView user token amount toEvm = .ok (.ok (), u') ↔
      ∃ b, u.getBalance user token = some b ∧ amount ≤ u.payingView user token toEvm ∧
        InRange (b.coreView.value - toward toEvm amount.value) ∧
        InRange (b.evmView.value + toward toEvm amount.value) ∧
        u' = u.setBalance user token (shifted b (toward toEvm amount.value)) := by
  cases hb : u.getBalance user token with
  | none =>
    unfold transferView UnifiedState.transferToEvmView UnifiedState.transferToCoreView
    rw [hb]
    cases toEvm <;> simp
  | some b =>
    rw [payingView_of_getBalance hb]
    unfold transferView UnifiedState.transferToEvmView UnifiedState.transferToCoreView
    rw [hb]
    cases toEvm with
    | false =>
      simp only [Bool.false_eq_true, if_false, toward, shifted, sub_neg_eq_add, ← sub_eq_add_neg]
      by_cases hlt : b.evmView < amount
      · rw [if_pos hlt]
        have hle : ¬ amount ≤ b.evmView := fun hle => Decimal.not_lt.mpr hle hlt
        simp [hle]
      · rw [if_neg hlt]
        simp only [bind_eq_ok, pure_eq_ok, Decimal.sub_eq_ok, Decimal.add_eq_ok, Prod.mk.injEq,
          true_and]
        constructor
        · rintro ⟨_, ⟨hevm, rfl⟩, _, ⟨hcore, rfl⟩, rfl⟩
          exact ⟨b, rfl, Decimal.not_lt.mp hlt, hcore, hevm, rfl⟩
        · rintro ⟨c, hc, -, hcore, hevm, rfl⟩
          obtain rfl := Option.some.inj hc
          exact ⟨_, ⟨hevm, rfl⟩, _, ⟨hcore, rfl⟩, rfl⟩
    | true =>
      simp only [if_true, toward, shifted]
      by_cases hlt : b.coreView < amount
      · rw [if_pos hlt]
        have hle : ¬ amount ≤ b.coreView := fun hle => Decimal.not_lt.mpr hle hlt
        simp [hle]
      · rw [if_neg hlt]
        simp only [bind_eq_ok, pure_eq_ok, Decimal.sub_eq_ok, Decimal.add_eq_ok, Prod.mk.injEq,
          true_and]
        constructor
        · rintro ⟨_, ⟨hcore, rfl⟩, _, ⟨hevm, rfl⟩, rfl⟩
          exact ⟨b, rfl, Decimal.not_lt.mp hlt, hcore, hevm, rfl⟩
        · rintro ⟨c, hc, -, hcore, hevm, rfl⟩
          obtain rfl := Option.some.inj hc
          exact ⟨_, ⟨hcore, rfl⟩, _, ⟨hevm, rfl⟩, rfl⟩

/-- A move changes the two views of one entry. -/
theorem transferView_raw (hb : u.getBalance user token = some b) (δ : Int) :
    (u.setBalance user token (shifted b δ)).coreRaw user token = u.coreRaw user token - δ ∧
      (u.setBalance user token (shifted b δ)).evmRaw user token = u.evmRaw user token + δ := by
  rw [coreRaw_setBalance, evmRaw_setBalance, if_pos ⟨rfl, rfl⟩, if_pos ⟨rfl, rfl⟩]
  unfold coreRaw evmRaw UnifiedState.getCoreView UnifiedState.getEvmView
  rw [hb]
  exact ⟨rfl, rfl⟩

end UnifiedState

/-! ### The spot engine's move -/

namespace SpotEngineState

/-- A move of the spot engine is covered: toward the EVM by what is available beside the
reserves, and always by the view that pays. -/
def CoversMove (s : SpotEngineState) (user : AccountAddress) (token : TokenIndex)
    (amount : Decimal) (toEvm : Bool) : Prop :=
  (toEvm = true → ∃ available, (s.getBalance user token).available = .ok available ∧
    amount ≤ available) ∧
  amount ≤ s.unifiedState.payingView user token toEvm

variable {s : SpotEngineState} {user : AccountAddress} {token : TokenIndex} {amount : Decimal}
  {toEvm : Bool}

theorem viewTransfer_succeeds_iff :
    (∃ s', s.viewTransfer user token amount toEvm = .ok (.ok (), s')) ↔
      (toEvm = true → ∃ available, (s.getBalance user token).available = .ok available ∧
        amount ≤ available) ∧
      ∃ u, s.unifiedState.transferView user token amount toEvm = .ok (.ok (), u) := by
  have hmapped : ∀ x : Exec (Except ViewTransferError Unit × UnifiedState),
      (∃ s' : SpotEngineState, (do
        let r ← x
        return (r.1.mapError fun e => Error.internal e.message, { s with unifiedState := r.2 }) :
          Exec (Except Error Unit × SpotEngineState)) = .ok (.ok (), s')) ↔
      ∃ u, x = .ok (.ok (), u) := by
    intro x
    simp only [bind_eq_ok, pure_eq_ok, Prod.mk.injEq]
    constructor
    · rintro ⟨s', ⟨r, u⟩, rfl, hr, -⟩
      cases r with
      | error e => cases hr
      | ok v => exact ⟨u, rfl⟩
    · rintro ⟨u, rfl⟩
      exact ⟨_, _, rfl, rfl, rfl⟩
  unfold viewTransfer UnifiedState.transferView
  cases toEvm with
  | false =>
    simp only [Bool.false_eq_true, if_false, false_implies, true_and]
    exact hmapped _
  | true =>
    simp only [if_true, true_implies]
    rw [← hmapped]
    constructor
    · rintro ⟨s', h⟩
      obtain ⟨available, ha, h⟩ := bind_inv h
      split at h
      · cases pure_inv h
      · next hlt => exact ⟨⟨available, ha, Decimal.not_lt.mp hlt⟩, s', h⟩
    · rintro ⟨⟨available, ha, hle⟩, s', h⟩
      refine ⟨s', bind_eq_ok.mpr ⟨available, ha, ?_⟩⟩
      rw [if_neg (Decimal.not_lt.mpr hle)]
      exact h

end SpotEngineState

/-! ### Actions -/

namespace AppState

/-- The scale of a token: its own, or that of an entry for a token that is not listed. -/
def tokenScale (s : AppState) (token : TokenIndex) : Nat :=
  match s.spot.bind (·.getToken token) with
  | some info => info.weiDecimals.toNat
  | none => tokenDecimals token

open EvmAction UnifiedState

/-- An action that succeeded has moved the encoded amount, rounded down to the scale of the
token, between the views of the sender, and nothing else; and the spot engine would have moved
that amount too. -/
structure MovesExactly (s s' : AppState) (sender : AccountAddress) (actionType : UInt8)
    (data : List UInt8) : Prop where
  /-- In the direction of the action; one without a direction may take either. -/
  moved : ∃ toEvm, (∀ d, direction actionType = some d → toEvm = d) ∧
    s'.unifiedState.coreRaw sender (token data) = s.unifiedState.coreRaw sender (token data) -
      toward toEvm (amountAt data (s.tokenScale (token data))) ∧
    s'.unifiedState.evmRaw sender (token data) = s.unifiedState.evmRaw sender (token data) +
      toward toEvm (amountAt data (s.tokenScale (token data)))
  rest : ∃ u, s' = s.setUnified u ∧ ∀ a k, ¬ (a = sender ∧ k = token data) →
    u.getBalance a k = s.unifiedState.getBalance a k
  covered : ∀ toEvm engine, direction actionType = some toEvm → s.spot = some engine →
    ∃ engine', engine.viewTransfer sender (token data)
      ⟨amountAt data (s.tokenScale (token data)), s.tokenScale (token data)⟩ toEvm =
        .ok (.ok (), engine')

variable {s s' : AppState} {sender : AccountAddress} {actionType : UInt8} {data : List UInt8}
  {events : List Event}

theorem toDecimals_tokenDecimals (k : TokenIndex) (raw : Int) :
    (⟨raw, 18⟩ : Decimal).toDecimals (tokenDecimals k) =
      .ok ⟨raw.tdiv (10 ^ (18 - tokenDecimals k)), tokenDecimals k⟩ := by
  unfold tokenDecimals
  split
  · have hpow : Decimal.pow10 12 = .ok (10 ^ 12) := Decimal.pow10_eq_ok.mpr ⟨by decide, rfl⟩
    show (do
      let scale ← Decimal.pow10 12
      return (⟨raw.tdiv scale, 6⟩ : Decimal)) = _
    rw [hpow]
    rfl
  · show Except.ok _ = _
    rw [Nat.sub_self, pow_zero, Int.tdiv_one]

/-- **Inversion.** An action that succeeded has moved what the code has read, or is unknown. -/
theorem executeEvmAction_succeeded (hlen : 64 ≤ data.length)
    (h : s.executeEvmAction sender actionType data = .ok (.ok events, s')) :
    (direction actionType = none ∧ s' = s) ∨ ∃ toEvm u, direction actionType = some toEvm ∧
      s.unifiedState.transferView sender (token data)
        ⟨(evmPayload data).2.tdiv (10 ^ (18 - tokenDecimals (token data))),
          tokenDecimals (token data)⟩ toEvm = .ok (.ok (), u) ∧ s' = s.setUnified u := by
  unfold executeEvmAction at h
  rw [if_pos hlen] at h
  obtain ⟨amount, hamount, h⟩ := bind_inv h
  have hread := (toDecimals_tokenDecimals (token data) (evmPayload data).2).symm.trans hamount
  obtain rfl := Except.ok.inj hread
  unfold executeEvmMove at h
  unfold direction
  split at h
  · next htype =>
    obtain ⟨⟨r, u⟩, hmove, h⟩ := bind_inv h
    rw [if_pos htype]
    cases r with
    | error e => cases pure_inv h
    | ok v =>
      cases pure_inv h
      exact .inr ⟨false, u, rfl, hmove, rfl⟩
  · next hcore =>
    rw [if_neg hcore]
    split at h
    · next htype =>
      obtain ⟨⟨r, u⟩, hmove, h⟩ := bind_inv h
      rw [if_pos htype]
      cases r with
      | error e => cases pure_inv h
      | ok v =>
        cases pure_inv h
        exact .inr ⟨true, u, rfl, hmove, rfl⟩
    · next htype =>
      cases pure_inv h
      rw [if_neg htype]
      exact .inl ⟨rfl, rfl⟩

theorem spot_unifiedState {engine : SpotEngineState} (h : s.spot = some engine) :
    engine.unifiedState = s.unifiedState := by
  obtain ⟨e, -, rfl⟩ := Option.map_eq_some_iff.mp h
  rfl

theorem toward_inj {toEvm : Bool} {x y : Int} (h : toward toEvm x = toward toEvm y) : x = y := by
  cases toEvm
  · exact Int.neg_inj.mp h
  · exact h

/-- An action of no known type moves nothing. -/
theorem movesExactly_unknown (hdir : direction actionType = none) :
    MovesExactly s s sender actionType data ↔ amountAt data (s.tokenScale (token data)) = 0 := by
  constructor
  · intro h
    obtain ⟨toEvm, -, hcore, -⟩ := h.moved
    have hzero : toward toEvm (amountAt data (s.tokenScale (token data))) = toward toEvm 0 := by
      have hnone : toward toEvm 0 = 0 := by cases toEvm <;> rfl
      omega
    exact Int.natCast_eq_zero.mp (toward_inj hzero)
  · intro hzero
    refine ⟨⟨true, ?_, ?_, ?_⟩, ⟨s.unifiedState, rfl, fun _ _ _ => rfl⟩, ?_⟩
    · rw [hdir]
      exact nofun
    · rw [hzero]
      exact (Int.sub_zero _).symm
    · rw [hzero]
      exact (Int.add_zero _).symm
    · rw [hdir]
      exact nofun

/-- **EVM actions.** An action that succeeded has moved the encoded amount, and one that the
spot engine covers, exactly when the word was read as it is and the engine covers the amount;
an action of no known type exactly when it encodes nothing. -/
theorem evm_action_exact_iff (hlen : 64 ≤ data.length)
    (h : s.executeEvmAction sender actionType data = .ok (.ok events, s')) :
    MovesExactly s s' sender actionType data ↔
      match direction actionType with
      | none => amountAt data (s.tokenScale (token data)) = 0
      | some toEvm =>
        ReadsExactly data (tokenDecimals (token data)) (s.tokenScale (token data)) ∧
          ∀ engine, s.spot = some engine → engine.CoversMove sender (token data)
            ⟨amountAt data (s.tokenScale (token data)), s.tokenScale (token data)⟩ toEvm := by
  obtain ⟨hdir, rfl⟩ | ⟨toEvm, u, hdir, hmove, rfl⟩ := executeEvmAction_succeeded hlen h
  · rw [hdir]
    exact movesExactly_unknown hdir
  · obtain ⟨b, hb, -, hcore, hevm, rfl⟩ := transferView_eq_ok.mp hmove
    have hplaces : tokenDecimals (token data) = 6 ∨ tokenDecimals (token data) = 18 := by
      unfold tokenDecimals
      split
      · exact .inl rfl
      · exact .inr rfl
    have hread := @read_iff data (s.tokenScale (token data)) _ hlen hplaces
    obtain ⟨hcoreRaw, hevmRaw⟩ := transferView_raw hb (toward toEvm
      ((evmPayload data).2.tdiv (10 ^ (18 - tokenDecimals (token data)))))
    rw [hdir]
    constructor
    · intro hexact
      obtain ⟨d, hd, hmoved, -⟩ := hexact.moved
      obtain rfl := hd toEvm hdir
      have hamount := toward_inj (sub_right_inj.mp (hcoreRaw.symm.trans hmoved))
      refine ⟨hread.mp hamount, fun engine hengine => ?_⟩
      obtain ⟨havailable, u, hu⟩ :=
        SpotEngineState.viewTransfer_succeeds_iff.mp (hexact.covered d engine hdir hengine)
      obtain ⟨_, -, hle, -⟩ := transferView_eq_ok.mp hu
      exact ⟨havailable, hle⟩
    · rintro ⟨hreads, hcovers⟩
      have hamount := hread.mpr hreads
      rw [hamount] at hcore hevm hcoreRaw hevmRaw
      refine ⟨⟨toEvm, fun d hd => ?_, ?_, ?_⟩, ⟨_, rfl, fun a k hne => ?_⟩,
        fun d engine hd hengine => ?_⟩
      · exact Option.some.inj (hdir.symm.trans hd)
      · rw [hamount]
        exact hcoreRaw
      · rw [hamount]
        exact hevmRaw
      · rw [getBalance_setBalance, if_neg]
        rintro ⟨rfl, rfl⟩
        exact hne ⟨rfl, rfl⟩
      · obtain rfl := Option.some.inj (hdir.symm.trans hd)
        obtain ⟨havailable, hle⟩ := hcovers engine hengine
        rw [spot_unifiedState hengine] at hle
        have hmoves := transferView_eq_ok.mpr ⟨b, hb, hle, hcore, hevm, rfl⟩
        rw [← spot_unifiedState hengine] at hmoves
        exact SpotEngineState.viewTransfer_succeeds_iff.mpr ⟨havailable, _, hmoves⟩

/-- The payload of an amount of USDC, in 18 decimals. -/
def usdcPayload (amount : Nat) : List UInt8 := List.replicate 32 0 ++ beBytes 32 amount

/-- One account with a thousand USDC, which takes an action of a withdrawal to the EVM. -/
def withdrawal (amount : Nat) : Exec (AppState × Except AppError (List Event) × AppState) := do
  let s ← nodeRun (usdcGenesis [(1, 1000000000)]) [.beginBlock 1 1000]
  let (r, s') ← s.executeEvmAction 1 1 (usdcPayload amount)
  return (s, r, s')

/-- The account has its USDC in the core view and none of it is reserved. -/
def unreserved (s : AppState) : Bool :=
  s.tokenScale 0 == 6 && s.unifiedState.getCoreView 1 0 == ⟨1000000000, 6⟩ &&
    s.spot.all fun e => (e.reserved[(⟨1, 0⟩ : PairKey AccountAddress TokenIndex)]?).isNone

/-- The action succeeded and left these views. -/
def leavesViews (core evm : Int) (x : AppState × Except AppError (List Event) × AppState) : Bool :=
  unreserved x.1 && x.2.1.toBool && x.2.2.unifiedState.coreRaw 1 0 == core &&
    x.2.2.unifiedState.evmRaw 1 0 == evm

theorem withdrawal_succeeded {amount : Nat} {core evm : Int}
    (h : leavesViews core evm <$> withdrawal amount = .ok true) : ∃ s s' events, Reachable s ∧
      s.executeEvmAction 1 1 (usdcPayload amount) = .ok (.ok events, s') ∧ unreserved s = true ∧
      s'.unifiedState.coreRaw 1 0 = core ∧ s'.unifiedState.evmRaw 1 0 = evm := by
  obtain ⟨x, hx, htest⟩ := exists_of_test h
  obtain ⟨s, hs, hx⟩ := bind_inv hx
  obtain ⟨⟨r, s'⟩, haction, hx⟩ := bind_inv hx
  cases pure_inv hx
  cases r with
  | error e =>
    simp only [leavesViews, Bool.and_eq_true] at htest
    cases htest.1.1.2
  | ok events =>
    simp only [leavesViews, Bool.and_eq_true, beq_iff_eq] at htest
    obtain ⟨⟨⟨hfree, -⟩, hcore⟩, hevm⟩ := htest
    exact ⟨s, s', events, nodeRun_reachable (usdcGenesis_nonneg _) hs, haction, hfree, hcore, hevm⟩

/-- Five USDC, withdrawn to the EVM. -/
theorem evm_action_exact_iff_five : ∃ s s', s'.unifiedState.coreRaw 1 0 = 995000000 ∧
    s'.unifiedState.evmRaw 1 0 = 5000000 ∧
    MovesExactly s s' 1 1 (usdcPayload (5 * 10 ^ 18)) := by
  obtain ⟨s, s', events, -, haction, hfree, hcore, hevm⟩ :=
    @withdrawal_succeeded (5 * 10 ^ 18) 995000000 5000000 (by decide +kernel)
  simp only [unreserved, Bool.and_eq_true, beq_iff_eq] at hfree
  obtain ⟨⟨hscale, hview⟩, hreserved⟩ := hfree
  have htoken : token (usdcPayload (5 * 10 ^ 18)) = 0 := by decide +kernel
  have hamount : amountAt (usdcPayload (5 * 10 ^ 18)) 6 = 5000000 := by decide +kernel
  refine ⟨s, s', hcore, hevm, (evm_action_exact_iff (by decide +kernel) haction).mpr ?_⟩
  show ReadsExactly _ _ _ ∧ _
  rw [htoken, hscale, hamount]
  refine ⟨.inl ⟨by decide +kernel, .inl rfl⟩, fun engine hengine => ⟨fun _ => ?_, ?_⟩⟩
  · rw [hengine] at hreserved
    have hnone := Option.isNone_iff_eq_none.mp hreserved
    refine ⟨⟨1000000000, 6⟩, ?_, by decide⟩
    unfold SpotEngineState.getBalance SpotBalance.available
    rw [spot_unifiedState hengine, hview, hnone]
    rfl
  · rw [spot_unifiedState hengine]
    show _ ≤ s.unifiedState.getCoreView 1 0
    rw [hview]
    decide

/-- A word that is read as a negative number: five USDC go the other way, out of an EVM view
that is empty. -/
theorem negative_withdrawal : ∃ s s' events, Reachable s ∧
    s.executeEvmAction 1 1 (usdcPayload (2 ^ 128 - 5 * 10 ^ 18)) = .ok (.ok events, s') ∧
    s.unifiedState.getCoreView 1 0 = ⟨1000000000, 6⟩ ∧
    s'.unifiedState.coreRaw 1 0 = 1005000000 ∧
    s'.unifiedState.evmRaw 1 0 = -5000000 ∧
    ¬ MovesExactly s s' 1 1 (usdcPayload (2 ^ 128 - 5 * 10 ^ 18)) := by
  obtain ⟨s, s', events, hs, haction, hfree, hcore, hevm⟩ :=
    @withdrawal_succeeded (2 ^ 128 - 5 * 10 ^ 18) 1005000000 (-5000000) (by decide +kernel)
  simp only [unreserved, Bool.and_eq_true, beq_iff_eq] at hfree
  refine ⟨s, s', events, hs, haction, hfree.1.2, hcore, hevm, fun hexact => ?_⟩
  -- a withdrawal never adds to the core view
  obtain ⟨toEvm, hdir, hmoved, -⟩ := hexact.moved
  obtain rfl := hdir true rfl
  have htoken : token (usdcPayload (2 ^ 128 - 5 * 10 ^ 18)) = 0 := by decide +kernel
  have hbefore : s.unifiedState.coreRaw 1 0 = 1000000000 := congrArg Decimal.value hfree.1.2
  rw [htoken, hbefore, hcore] at hmoved
  unfold toward at hmoved
  rw [if_pos rfl] at hmoved
  omega

end AppState

end Hypercore
