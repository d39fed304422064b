import Hypercore.Evm.State
/-!
# Hypercore.Evm.Db

The database the interpreter reads and commits to (`HyperEvmDb`), against the
account map it stands for.

The account map (`AccountMap`) is what a commit says it is: each account named in it
gets the balance, nonce, code and slots given there, a self-destructed one is gone.
The database keeps the same data in four places, one of them shared with the
exchange, and tracks the map exactly as long as every commit can be stored there
(`Faithful`).
-/

namespace Hypercore

open Exec Int128

/-- What the database tells of an account. -/
structure AccountInfo where
  balance : U256
  nonce : Nat
  codeHash : B256
  code : Option Bytes
  deriving DecidableEq, Repr

/-- An account in a commit, as the interpreter leaves it. -/
structure Account where
  balance : U256
  nonce : Nat
  /-- The code, if the interpreter has loaded it. -/
  code : Option Bytes
  /-- The account self-destructed. -/
  selfdestructed : Bool
  /-- Present values of the slots it has loaded. -/
  storage : List (U256 × U256)
  deriving DecidableEq, Repr

/-- The accounts of one commit, in the order the hash map yields them. -/
abbrev Changes := List (Address × Account)

/-! ### The account map -/

namespace AccountMap

/-- An account of the map. -/
structure Entry where
  balance : U256
  nonce : Nat
  code : Bytes
  deriving DecidableEq, Repr

end AccountMap

/-- The accounts and their storage. -/
structure AccountMap where
  account : Address → Option AccountMap.Entry
  storage : Address → U256 → U256

namespace AccountMap

variable (m : AccountMap)

/-- Code of an address, empty without an account. -/
def code (a : Address) : Bytes := ((m.account a).map (·.code)).getD []

/-- The storage of an account with some slots written. -/
def writeSlots (row : U256 → U256) (slots : List (U256 × U256)) : U256 → U256 :=
  slots.foldl (fun row p => Function.update row p.1 p.2) row

/-- One account of a commit. Code that was not loaded is what it was. -/
def commitAccount (a : Address) (x : Account) : AccountMap :=
  if x.selfdestructed then
    ⟨Function.update m.account a none, Function.update m.storage a fun _ => 0⟩
  else
    ⟨Function.update m.account a (some ⟨x.balance, x.nonce, x.code.getD (m.code a)⟩),
      Function.update m.storage a (writeSlots (m.storage a) x.storage)⟩

/-- A commit. -/
def commit (changes : Changes) : AccountMap :=
  changes.foldl (fun m p => m.commitAccount p.1 p.2) m

end AccountMap

/-! ### The database -/

namespace EvmState

variable (K : Keccak256) (s : EvmState)

/-- `Database::basic`. -/
def basic (a : Address) : Exec (Option AccountInfo) := do
  let balance ← s.getBalance a
  match s.accounts[a]? with
  | some account =>
    let storedCodeHash := account.codeHash.getD .zero
    let code := if storedCodeHash ≠ .zero then s.getCodeByHash storedCodeHash else none
    return some ⟨balance, account.nonce, storedCodeHash, code⟩
  | none =>
    -- a balance without metadata is an externally owned account
    if balance ≠ 0 then return some ⟨balance, 0, .zero, none⟩ else return none

/-- `Database::code_by_hash`. -/
def codeByHash (hash : B256) : Bytes :=
  if hash = .zero then [] else (s.getCodeByHash hash).getD []

/-- Code is stored if it was loaded and is not empty. -/
def commitCode (a : Address) (code : Option Bytes) : EvmState :=
  match code with
  | some code => if code ≠ [] then s.setCode K a code else s
  | none => s

/-- One account of `DatabaseCommit::commit`. -/
def commitAccount (s : EvmState) (p : Address × Account) : Exec EvmState :=
  if p.2.selfdestructed then return s.deleteAccount p.1
  else do
    let s ← s.setBalance p.1 p.2.balance
    let s := (s.setNonce p.1 p.2.nonce).commitCode K p.1 p.2.code
    return p.2.storage.foldl (fun s q => s.setStorage p.1 q.1 q.2) s

/-- `DatabaseCommit::commit`. -/
def commit (changes : Changes) : Exec EvmState := changes.foldlM (commitAccount K) s

/-! ### The map a database stands for -/

/-- Code of an address. -/
def codeAt (a : Address) : Bytes :=
  (((s.accounts[a]?).bind (·.codeHash)).bind (s.code[·]?)).getD []

/-- The account at an address. -/
def accountAt (a : Address) : Option AccountMap.Entry :=
  match s.accounts[a]? with
  | some x => some ⟨s.unifiedState.nativeWord a, x.nonce, s.codeAt a⟩
  | none =>
    if s.unifiedState.nativeRaw a = 0 then none
    else some ⟨s.unifiedState.nativeWord a, 0, []⟩

/-- A database in good order: native balances are, code is filed under its hash, and
every code hash is known. -/
structure WF : Prop where
  native : s.unifiedState.Native
  code : ∀ (hash : B256) (c : Bytes), s.code[hash]? = some c → K.digest c = hash ∧ c ≠ []
  known : ∀ (a : Address) (x : EvmAccount) (hash : B256), s.accounts[a]? = some x →
    x.codeHash = some hash → (s.code[hash]?).isSome

/-- What the database tells of an account of the map. -/
def info (x : AccountMap.Entry) : AccountInfo where
  balance := x.balance
  nonce := x.nonce
  codeHash := if x.code = [] then .zero else K.digest x.code
  code := if x.code = [] then none else some x.code

/-- The database reads as an account map. -/
structure Represents (m : AccountMap) : Prop where
  basic : ∀ a, s.basic a = .ok ((m.account a).map (info K))
  storage : ∀ a key, s.getStorage a key = m.storage a key
  code : ∀ a x, m.account a = some x → s.codeByHash (info K x).codeHash = x.code

variable {K s} {s' : EvmState} {a b : Address} {m : AccountMap}

theorem info_injective : Function.Injective (info K) := by
  intro x y h
  obtain ⟨xb, xn, xc⟩ := x
  obtain ⟨yb, yn, yc⟩ := y
  simp only [info, AccountInfo.mk.injEq] at h
  obtain ⟨rfl, rfl, -, hcode⟩ := h
  split at hcode <;> split at hcode <;> simp_all

/-- A known code hash is that of the account's code. -/
theorem WF.codeAt (hw : s.WF K) {x : EvmAccount} (hx : s.accounts[a]? = some x) :
    (x.codeHash = none ∧ s.codeAt a = []) ∨
      (x.codeHash = some (K.digest (s.codeAt a)) ∧ s.codeAt a ≠ [] ∧
        s.code[K.digest (s.codeAt a)]? = some (s.codeAt a)) := by
  unfold EvmState.codeAt
  rw [hx, Option.bind_some]
  cases hh : x.codeHash with
  | none => exact .inl ⟨rfl, rfl⟩
  | some hash =>
    obtain ⟨c, hc⟩ := Option.isSome_iff_exists.mp (hw.known a x hash hx hh)
    obtain ⟨hdigest, hne⟩ := hw.code hash c hc
    rw [Option.bind_some, hc, Option.getD_some, hdigest]
    exact .inr ⟨rfl, hne, hc⟩

theorem WF.basic (hw : s.WF K) (a : Address) :
    s.basic a = .ok ((s.accountAt a).map (info K)) := by
  have hval := hw.native.nativeWord_val a
  unfold EvmState.basic EvmState.accountAt
  rw [getBalance_native hw.native, ok_bind]
  cases hx : s.accounts[a]? with
  | none =>
    by_cases h0 : s.unifiedState.nativeRaw a = 0
    · have hword : s.unifiedState.nativeWord a = 0 := by
        apply Fin.ext
        rw [h0] at hval
        exact Int.natCast_eq_zero.mp hval
      simp only [h0, hword, if_true]
      rfl
    · have hword : s.unifiedState.nativeWord a ≠ 0 := by
        intro h
        rw [h] at hval
        exact h0 hval.symm
      dsimp only
      rw [if_pos hword, if_neg h0]
      rfl
  | some x =>
    dsimp only
    rcases hw.codeAt hx with ⟨hhash, hcode⟩ | ⟨hhash, hne, hcode⟩
    · rw [hhash, hcode]
      rfl
    · rw [hhash, Option.getD_some, if_pos (K.ne_zero _)]
      simp only [getCodeByHash, hcode, info, if_neg hne, Option.map_some]
      rfl

theorem WF.codeByHash (hw : s.WF K) {x : AccountMap.Entry} (hx : s.accountAt a = some x) :
    s.codeByHash (info K x).codeHash = x.code := by
  unfold accountAt at hx
  unfold EvmState.codeByHash info getCodeByHash
  cases hacc : s.accounts[a]? with
  | none =>
    rw [hacc] at hx
    dsimp only at hx
    split at hx
    · cases hx
    · cases hx
      rfl
  | some y =>
    rw [hacc] at hx
    cases hx
    rcases hw.codeAt hacc with ⟨-, hcode⟩ | ⟨-, hne, hcode⟩
    · simp only [hcode, if_true]
    · simp only [if_neg hne, if_neg (K.ne_zero _), hcode, Option.getD_some]

/-- A database in good order stands for one map. -/
theorem WF.represents_iff_agree (hw : s.WF K) :
    s.Represents K m ↔
      (∀ a, m.account a = s.accountAt a) ∧ ∀ a key, m.storage a key = s.getStorage a key := by
  constructor
  · intro h
    refine ⟨fun a => ?_, fun a key => (h.storage a key).symm⟩
    have hbasic := (h.basic a).symm.trans (hw.basic a)
    exact Option.map_injective info_injective (Except.ok.inj hbasic)
  · rintro ⟨hacc, hsto⟩
    refine ⟨fun a => ?_, fun a key => (hsto a key).symm, fun a x hx => ?_⟩
    · rw [hacc]
      exact hw.basic a
    · rw [hacc] at hx
      exact hw.codeByHash hx

/-! ### Committing one account -/

theorem foldl_setStorage (slots : List (U256 × U256)) (s : EvmState) (a : Address) :
    let t := slots.foldl (fun s q => s.setStorage a q.1 q.2) s
    t.unifiedState = s.unifiedState ∧ t.accounts = s.accounts ∧ t.code = s.code ∧
      ∀ b key, t.getStorage b key =
        if a = b then AccountMap.writeSlots (s.getStorage a) slots key else s.getStorage b key := by
  induction slots generalizing s with
  | nil =>
    refine ⟨rfl, rfl, rfl, fun b key => ?_⟩
    split
    · rename_i hab
      rw [← hab]
      rfl
    · rfl
  | cons q slots ih =>
    obtain ⟨hu, hacc, hcode, hsto⟩ := ih (s.setStorage a q.1 q.2)
    have hrow : (s.setStorage a q.1 q.2).getStorage a =
        Function.update (s.getStorage a) q.1 q.2 := by
      funext key
      rw [getStorage_setStorage, Function.update_apply]
      simp only [true_and, eq_comm]
    refine ⟨hu, hacc, hcode, fun b key => ?_⟩
    rw [List.foldl_cons, hsto, hrow, getStorage_setStorage]
    split
    · rfl
    · rename_i hab
      rw [if_neg fun h => hab h.1]

/-- The raw total that an account would have with another native balance. -/
def totalWith (s : EvmState) (a : Address) (raw : Int) : Int :=
  s.unifiedState.nativeTotal a + (raw - s.unifiedState.nativeRaw a)

/-- The code an account has after its commit. -/
def committedCode (s : EvmState) (a : Address) (code : Option Bytes) : Bytes :=
  match code with
  | some code => if code ≠ [] then code else s.codeAt a
  | none => s.codeAt a

/-- The account that a commit leaves at its address. -/
def committed (s : EvmState) (a : Address) (x : Account) : Option AccountMap.Entry :=
  if x.selfdestructed then
    if s.unifiedState.nativeRaw a = 0 then none
    else some ⟨s.unifiedState.nativeWord a, 0, []⟩
  else some ⟨Fin.ofNat (2 ^ 256) (storedRaw x.balance.val), x.nonce, s.committedCode a x.code⟩

/-- What committing one account does. -/
structure Commits (K : Keccak256) (s s' : EvmState) (a : Address) (x : Account) : Prop where
  wf : s'.WF K
  account : s'.accountAt a = s.committed a x
  accounts : ∀ b, a ≠ b → s'.accountAt b = s.accountAt b
  storage : ∀ b key, s'.getStorage b key =
    if a = b then
      if x.selfdestructed then 0 else AccountMap.writeSlots (s.getStorage a) x.storage key
    else s.getStorage b key
  raw : ∀ b, a ≠ b → s'.unifiedState.nativeRaw b = s.unifiedState.nativeRaw b
  total : ∀ b, a ≠ b → s'.unifiedState.nativeTotal b = s.unifiedState.nativeTotal b
  code : ∀ b, a ≠ b → s'.codeAt b = s.codeAt b

/-- An account is read off its metadata, its native balance and the code known. -/
theorem accountAt_congr (hw : s.WF K)
    (hacc : s'.accounts[b]? = s.accounts[b]?)
    (hraw : s'.unifiedState.nativeRaw b = s.unifiedState.nativeRaw b)
    (hcode : ∀ (hash : B256) (c : Bytes), s.code[hash]? = some c → s'.code[hash]? = some c) :
    s'.codeAt b = s.codeAt b ∧ s'.accountAt b = s.accountAt b := by
  have hat : s'.codeAt b = s.codeAt b := by
    unfold codeAt
    rw [hacc]
    cases hx : s.accounts[b]? with
    | none => rfl
    | some x =>
      rw [Option.bind_some]
      cases hh : x.codeHash with
      | none => rfl
      | some hash =>
        obtain ⟨c, hc⟩ := Option.isSome_iff_exists.mp (hw.known b x hash hx hh)
        rw [Option.bind_some, Option.bind_some, hc, hcode hash c hc]
  refine ⟨hat, ?_⟩
  unfold accountAt UnifiedState.nativeWord
  rw [hacc, hraw, hat]

variable {x : Account}

theorem commitAccount_selfdestructed (hw : s.WF K) (hx : x.selfdestructed = true) :
    ∃ s', commitAccount K s (a, x) = .ok s' ∧ Commits K s s' a x := by
  have herase : ∀ b, a ≠ b → (s.deleteAccount a).accounts[b]? = s.accounts[b]? :=
    fun b hab => FinMap.get_erase_ne _ hab
  have hgone : (s.deleteAccount a).accounts[a]? = none := by
    unfold deleteAccount
    dsimp only
    rw [FinMap.get_erase, if_pos rfl]
  refine ⟨s.deleteAccount a, by simp [commitAccount, hx], ?_⟩
  constructor
  case wf =>
    refine ⟨hw.native, hw.code, fun b y hash hy hh => ?_⟩
    by_cases hab : a = b
    · rw [← hab, hgone] at hy
      cases hy
    · rw [herase b hab] at hy
      exact hw.known b y hash hy hh
  case account =>
    unfold accountAt committed
    rw [hgone, if_pos hx]
    rfl
  case accounts =>
    exact fun b hab => (accountAt_congr hw (herase b hab) rfl fun _ _ h => h).2
  case storage =>
    intro b key
    unfold getStorage deleteAccount
    dsimp only
    rw [FinMap.get_erase, hx]
    split
    · rfl
    · rfl
  case raw => exact fun _ _ => rfl
  case total => exact fun _ _ => rfl
  case code => exact fun b hab => (accountAt_congr hw (herase b hab) rfl fun _ _ h => h).1

/-- The state after an account's balance and nonce have been set. -/
def settled (s : EvmState) (a : Address) (x : Account) : EvmState :=
  ((s.setUnified (s.unifiedState.settle a (storedRaw x.balance.val))).touch a).setNonce a x.nonce

/-- And its code. -/
def written (K : Keccak256) (s : EvmState) (a : Address) (x : Account) : EvmState :=
  (settled s a x).commitCode K a x.code

theorem written_spec (hw : s.WF K) :
    (written K s a x).unifiedState = s.unifiedState.settle a (storedRaw x.balance.val) ∧
    (written K s a x).storage = s.storage ∧
    (∀ (hash : B256) (c : Bytes), s.code[hash]? = some c →
      (written K s a x).code[hash]? = some c) ∧
    (∀ (hash : B256) (c : Bytes), (written K s a x).code[hash]? = some c →
      K.digest c = hash ∧ c ≠ []) ∧
    (∀ b : Address, a ≠ b → (written K s a x).accounts[b]? = s.accounts[b]?) ∧
    ∃ y, (written K s a x).accounts[a]? = some y ∧ y.nonce = x.nonce ∧
      (written K s a x).codeAt a = s.committedCode a x.code ∧
      ∀ hash : B256, y.codeHash = some hash → ((written K s a x).code[hash]?).isSome := by
  -- the account before its code is written
  have hbase : ∀ b : Address, (settled s a x).accounts[b]? =
      if a = b then some ⟨x.nonce, (s.getOrCreateAccount a).codeHash⟩ else s.accounts[b]? := by
    intro b
    unfold settled setNonce touch
    rw [accounts_putAccount]
    by_cases hab : a = b
    · rw [if_pos hab, if_pos hab]
      unfold getOrCreateAccount
      rw [accounts_putAccount, if_pos rfl]
      rfl
    · rw [if_neg hab, if_neg hab, accounts_putAccount, if_neg hab]
      rfl
  have hold : ∀ hash : B256,
      (s.getOrCreateAccount a).codeHash = some hash → (s.code[hash]?).isSome := by
    intro hash hh
    unfold getOrCreateAccount at hh
    cases hx : s.accounts[a]? with
    | none =>
      rw [hx] at hh
      cases hh
    | some y =>
      rw [hx] at hh
      exact hw.known a y hash hx hh
  have hcodeAt : ((s.getOrCreateAccount a).codeHash.bind (s.code[·]?)).getD [] = s.codeAt a := by
    unfold getOrCreateAccount codeAt
    cases s.accounts[a]? <;> rfl
  unfold written commitCode committedCode
  cases hc : x.code with
  | none =>
    refine ⟨rfl, rfl, fun _ _ h => h, hw.code, fun b hab => ?_,
      _, (hbase a).trans (if_pos rfl), rfl, ?_, hold⟩
    · exact (hbase b).trans (if_neg hab)
    · unfold codeAt
      rw [hbase, if_pos rfl, Option.bind_some]
      exact hcodeAt
  | some c =>
    dsimp only
    by_cases hne : c ≠ []
    · rw [if_pos hne, if_pos hne]
      unfold setCode
      refine ⟨rfl, rfl, fun hash c' hc' => ?_, fun hash c' hc' => ?_, fun b hab => ?_,
        _, (accounts_putAccount _).trans (if_pos rfl), ?_, ?_, fun hash hh => ?_⟩
      · rw [code_putAccount, FinMap.get_insert]
        split
        · rename_i hhash
          -- what is already filed under this hash is the same code
          rw [K.injective (hhash.trans (hw.code hash c' hc').1.symm)]
        · exact hc'
      · rw [code_putAccount, FinMap.get_insert] at hc'
        split at hc'
        · rename_i hhash
          cases hc'
          exact ⟨hhash, hne⟩
        · exact hw.code hash c' hc'
      · rw [accounts_putAccount, if_neg hab]
        exact (hbase b).trans (if_neg hab)
      · unfold getOrCreateAccount
        have hself := (hbase a).trans (if_pos rfl)
        dsimp only
        rw [hself]
        rfl
      · unfold codeAt
        rw [accounts_putAccount, if_pos rfl, Option.bind_some, code_putAccount, Option.bind_some,
          FinMap.get_insert, if_pos rfl]
        rfl
      · cases hh
        rw [code_putAccount, FinMap.get_insert, if_pos rfl]
        rfl
    · rw [if_neg hne, if_neg hne]
      refine ⟨rfl, rfl, fun _ _ h => h, hw.code, fun b hab => ?_,
        _, (hbase a).trans (if_pos rfl), rfl, ?_, hold⟩
      · exact (hbase b).trans (if_neg hab)
      · unfold codeAt
        rw [hbase, if_pos rfl, Option.bind_some]
        exact hcodeAt

theorem commitAccount_written (hn : s.unifiedState.Native) (hx : x.selfdestructed = false) :
    commitAccount K s (a, x) = .ok s' ↔ s.totalWith a (storedRaw x.balance.val) < 2 ^ 127 ∧
      s' = x.storage.foldl (fun s q => s.setStorage a q.1 q.2) (written K s a x) := by
  unfold commitAccount totalWith
  rw [hx]
  simp only [Bool.false_eq_true, if_false, bind_eq_ok, pure_eq_ok, setBalance_native hn]
  constructor
  · rintro ⟨t, ⟨hfit, rfl⟩, rfl⟩
    exact ⟨hfit, rfl⟩
  · rintro ⟨hfit, rfl⟩
    exact ⟨_, ⟨hfit, rfl⟩, rfl⟩

theorem commitAccount_changed (hw : s.WF K) (hx : x.selfdestructed = false)
    (h : commitAccount K s (a, x) = .ok s') : Commits K s s' a x := by
  obtain ⟨hfit, rfl⟩ := (commitAccount_written hw.native hx).mp h
  obtain ⟨hu, hacc, hcode, hsto⟩ := foldl_setStorage x.storage (written K s a x) a
  obtain ⟨wu, wsto, wkept, wcode, wacc, y, wself, wnonce, wat, wknown⟩ :=
    written_spec (a := a) hw (x := x)
  have hstored : (0 : Int) ≤ storedRaw x.balance.val := Int.natCast_nonneg _
  have hraw : ∀ b, (x.storage.foldl (fun s q => s.setStorage a q.1 q.2)
      (written K s a x)).unifiedState.nativeRaw b =
      if a = b then (storedRaw x.balance.val : Int) else s.unifiedState.nativeRaw b := by
    intro b
    rw [hu, wu, UnifiedState.nativeRaw_settle]
  have hother : ∀ b, a ≠ b → _ := fun b hab =>
    accountAt_congr (b := b) hw (by rw [hacc, wacc b hab]) ((hraw b).trans (if_neg hab))
      fun hash c hc => by rw [hcode, wkept hash c hc]
  constructor
  case wf =>
    refine ⟨?_, fun hash c hc => ?_, fun b z hash hz hh => ?_⟩
    · rw [hu, wu]
      exact hw.native.settle hstored hfit
    · rw [hcode] at hc
      exact wcode hash c hc
    · rw [hacc] at hz
      rw [hcode]
      by_cases hab : a = b
      · rw [← hab, wself] at hz
        cases hz
        exact wknown hash hh
      · rw [wacc b hab] at hz
        obtain ⟨c, hc⟩ := Option.isSome_iff_exists.mp (hw.known b z hash hz hh)
        rw [wkept hash c hc]
        rfl
  case account =>
    have hat : (x.storage.foldl (fun s q => s.setStorage a q.1 q.2) (written K s a x)).codeAt a =
        s.committedCode a x.code := by
      rw [← wat]
      unfold codeAt
      rw [hacc, hcode]
    unfold accountAt committed UnifiedState.nativeWord
    rw [hraw, if_pos rfl, hacc, wself, hx, hat]
    dsimp only
    rw [wnonce]
    rfl
  case accounts => exact fun b hab => (hother b hab).2
  case storage =>
    intro b key
    have hrow : ∀ c, (written K s a x).getStorage c = s.getStorage c := by
      intro c
      funext key
      unfold getStorage
      rw [wsto]
    rw [hsto, hrow, hrow, hx]
    rfl
  case raw => exact fun b hab => (hraw b).trans (if_neg hab)
  case total =>
    intro b hab
    rw [hu, wu, UnifiedState.nativeTotal_settle, if_neg hab]
  case code => exact fun b hab => (hother b hab).1

theorem commitAccount_spec (hw : s.WF K) (h : commitAccount K s (a, x) = .ok s') :
    Commits K s s' a x := by
  cases hx : x.selfdestructed with
  | false => exact commitAccount_changed hw hx h
  | true =>
    obtain ⟨t, ht, hc⟩ := commitAccount_selfdestructed (a := a) hw hx
    rw [ht] at h
    cases h
    exact hc

/-! ### Faithful commits -/

/-- An account that the database can store: one that self-destructed has no balance on
the sheet, the balance of another one fits, also into the account's total, and its code
is not emptied. -/
def FaithfulAccount (s : EvmState) (a : Address) (x : Account) : Prop :=
  if x.selfdestructed then s.unifiedState.nativeRaw a = 0
  else x.balance.val ≤ i128Max ∧ s.totalWith a x.balance.val < 2 ^ 127 ∧
    (x.code = some [] → s.codeAt a = [])

instance (s : EvmState) (a : Address) (x : Account) : Decidable (s.FaithfulAccount a x) :=
  inferInstanceAs (Decidable (if x.selfdestructed then s.unifiedState.nativeRaw a = 0
    else x.balance.val ≤ i128Max ∧ s.totalWith a x.balance.val < 2 ^ 127 ∧
      (x.code = some [] → s.codeAt a = [])))

/-- All accounts of a commit can be stored. -/
def Faithful (s : EvmState) (changes : Changes) : Prop :=
  ∀ p ∈ changes, s.FaithfulAccount p.1 p.2

instance (s : EvmState) (changes : Changes) : Decidable (s.Faithful changes) :=
  inferInstanceAs (Decidable (∀ p ∈ changes, s.FaithfulAccount p.1 p.2))

theorem codeAt_eq (s : EvmState) (a : Address) :
    s.codeAt a = ((s.accountAt a).map (·.code)).getD [] := by
  unfold accountAt
  cases hx : s.accounts[a]? with
  | none =>
    unfold codeAt
    rw [hx]
    dsimp only
    split <;> rfl
  | some x => rfl

/-- The account a commit leaves is the one it names exactly when it can be stored. -/
theorem committed_iff (hw : s.WF K) (hm : s.Represents K m)
    (hfit : x.selfdestructed = false → s.totalWith a (storedRaw x.balance.val) < 2 ^ 127) :
    s.committed a x = (m.commitAccount a x).account a ↔ s.FaithfulAccount a x := by
  have hcode : m.code a = s.codeAt a := by
    unfold AccountMap.code
    rw [(hw.represents_iff_agree.mp hm).1 a, codeAt_eq]
  unfold committed AccountMap.commitAccount FaithfulAccount
  cases hx : x.selfdestructed with
  | true =>
    simp only [if_true, Function.update_self]
    split
    · rename_i h
      exact ⟨fun _ => h, fun _ => rfl⟩
    · rename_i h
      exact ⟨fun hk => (Option.some_ne_none _ hk).elim, fun hk => (h hk).elim⟩
  | false =>
    have hfit := hfit hx
    have hbal : Fin.ofNat (2 ^ 256) (storedRaw x.balance.val) = x.balance ↔
        x.balance.val ≤ i128Max := by
      have hlt := x.balance.isLt
      rw [Fin.ext_iff, Fin.val_ofNat]
      unfold storedRaw i128Max
      omega
    simp only [Bool.false_eq_true, if_false, Function.update_self, Option.some.injEq,
      AccountMap.Entry.mk.injEq, true_and, hbal, hcode]
    have hstored : x.balance.val ≤ i128Max → storedRaw x.balance.val = x.balance.val :=
      fun h => min_eq_left h
    unfold committedCode
    cases hc : x.code with
    | none =>
      constructor
      · rintro ⟨hb, -⟩
        rw [hstored hb] at hfit
        exact ⟨hb, hfit, fun h => by cases h⟩
      · rintro ⟨hb, -, -⟩
        exact ⟨hb, rfl⟩
    | some c =>
      simp only [Option.getD_some, Option.some.injEq]
      constructor
      · rintro ⟨hb, hcc⟩
        rw [hstored hb] at hfit
        refine ⟨hb, hfit, fun h => ?_⟩
        rw [h, if_neg (by simp)] at hcc
        exact hcc
      · rintro ⟨hb, -, hempty⟩
        refine ⟨hb, ?_⟩
        split
        · rfl
        · rename_i hne
          rw [not_not] at hne
          rw [hempty hne, hne]

/-- Committing one account leaves what other accounts depend on. -/
theorem Commits.faithful_iff {y : Account} (h : Commits K s s' a x) (hab : a ≠ b) :
    s'.FaithfulAccount b y ↔ s.FaithfulAccount b y := by
  unfold FaithfulAccount totalWith
  rw [h.raw b hab, h.total b hab, h.code b hab]

/-- If the account at its address comes out right, the whole database does. -/
theorem Commits.represents (h : Commits K s s' a x) (hw : s.WF K) (hm : s.Represents K m)
    (hself : s.committed a x = (m.commitAccount a x).account a) :
    s'.Represents K (m.commitAccount a x) := by
  obtain ⟨hacc, hsto⟩ := hw.represents_iff_agree.mp hm
  refine h.wf.represents_iff_agree.mpr ⟨fun b => ?_, fun b key => ?_⟩
  · by_cases hab : a = b
    · rw [← hab, h.account, hself]
    · rw [h.accounts b hab, ← hacc b]
      unfold AccountMap.commitAccount
      split <;> exact Function.update_of_ne (Ne.symm hab) _ _
  · rw [h.storage]
    have hrow : m.storage a = s.getStorage a := funext (hsto a)
    unfold AccountMap.commitAccount
    by_cases hab : a = b
    · subst hab
      rw [if_pos rfl, hrow]
      split <;> simp only [Function.update_self]
    · rw [if_neg hab, ← hsto b key]
      split <;> simp only [Function.update_of_ne (Ne.symm hab)]

theorem commit_frame {changes : Changes} (hw : s.WF K) (h : s.commit K changes = .ok s') :
    s'.WF K ∧ ∀ b ∉ changes.map Prod.fst, s'.accountAt b = s.accountAt b := by
  refine foldlM_induction (P := fun t => t.WF K ∧
    ∀ b ∉ changes.map Prod.fst, t.accountAt b = s.accountAt b) h ⟨hw, fun _ _ => rfl⟩ ?_
  intro p hp t t' ⟨ht, hacc⟩ hc
  have hcommits := commitAccount_spec ht hc
  refine ⟨hcommits.wf, fun b hb => ?_⟩
  rw [hcommits.accounts b fun heq => hb (heq ▸ List.mem_map_of_mem hp), hacc b hb]

theorem commit_cons_eq_ok {p : Address × Account} {changes : Changes} :
    s.commit K (p :: changes) = .ok s' ↔
      ∃ t, commitAccount K s p = .ok t ∧ t.commit K changes = .ok s' := by
  unfold commit
  rw [List.foldlM_cons, bind_eq_ok]

end EvmState

theorem AccountMap.commit_account {changes : Changes} (m : AccountMap) {b : Address}
    (hb : b ∉ changes.map Prod.fst) : (m.commit changes).account b = m.account b := by
  induction changes generalizing m with
  | nil => rfl
  | cons p changes ih =>
    rw [List.map_cons, List.mem_cons, not_or] at hb
    change ((m.commitAccount p.1 p.2).commit changes).account b = _
    rw [ih _ hb.2]
    unfold commitAccount
    split <;> exact Function.update_of_ne hb.1 _ _

namespace EvmState

variable {K : Keccak256} {s s' : EvmState} {m : AccountMap}

/-- **One commit.** It returns, and leaves the database reading as the map after the
commit, exactly when every account in it can be stored. -/
theorem commit_represents_iff {changes : Changes} (hw : s.WF K) (hm : s.Represents K m)
    (hkeys : (changes.map Prod.fst).Nodup) :
    (∃ s', s.commit K changes = .ok s' ∧ s'.Represents K (m.commit changes)) ↔
      s.Faithful changes := by
  induction changes generalizing s m with
  | nil =>
    constructor
    · intro _ p hp
      cases hp
    · exact fun _ => ⟨s, rfl, hm⟩
  | cons p changes ih =>
    obtain ⟨a, x⟩ := p
    obtain ⟨hfresh, hkeys⟩ := List.nodup_cons.mp hkeys
    have hne : ∀ q ∈ changes, a ≠ q.1 := fun q hq heq =>
      hfresh (List.mem_map.mpr ⟨q, hq, heq.symm⟩)
    -- what the first account leaves does not matter to the others
    have hrest : ∀ t, Commits K s t a x → (t.Faithful changes ↔ s.Faithful changes) :=
      fun t ht => forall₂_congr fun q hq => ht.faithful_iff (hne q hq)
    have hcons : s.Faithful ((a, x) :: changes) ↔ s.FaithfulAccount a x ∧ s.Faithful changes :=
      List.forall_mem_cons
    rw [hcons]
    constructor
    · rintro ⟨s', h, hr⟩
      obtain ⟨t, ht, h⟩ := commit_cons_eq_ok.mp h
      have hcommits := commitAccount_spec hw ht
      have hfit : x.selfdestructed = false → s.totalWith a (storedRaw x.balance.val) < 2 ^ 127 :=
        fun hx => ((commitAccount_written hw.native hx).mp ht).1
      obtain ⟨hw', hframe⟩ := commit_frame hcommits.wf h
      -- no other account of the commit repairs this one
      have hself : s.committed a x = (m.commitAccount a x).account a := by
        rw [← hcommits.account, ← hframe a hfresh, ← (hw'.represents_iff_agree.mp hr).1 a]
        exact AccountMap.commit_account _ hfresh
      have hone := (committed_iff hw hm hfit).mp hself
      exact ⟨hone, (hrest t hcommits).mp
        ((ih hcommits.wf (hcommits.represents hw hm hself) hkeys).mp ⟨s', h, hr⟩)⟩
    · rintro ⟨hone, hall⟩
      have hfit : x.selfdestructed = false →
          s.totalWith a (storedRaw x.balance.val) < 2 ^ 127 := by
        intro hx
        unfold FaithfulAccount at hone
        rw [hx] at hone
        obtain ⟨hmax, htotal, -⟩ := hone
        rw [show storedRaw x.balance.val = x.balance.val from min_eq_left hmax]
        exact htotal
      obtain ⟨t, ht⟩ : ∃ t, commitAccount K s (a, x) = .ok t := by
        cases hx : x.selfdestructed with
        | true =>
          obtain ⟨t, ht, -⟩ := commitAccount_selfdestructed (a := a) hw hx
          exact ⟨t, ht⟩
        | false => exact ⟨_, (commitAccount_written hw.native hx).mpr ⟨hfit hx, rfl⟩⟩
      have hcommits := commitAccount_spec hw ht
      have hself := (committed_iff hw hm hfit).mpr hone
      obtain ⟨s', h, hr⟩ := (ih hcommits.wf (hcommits.represents hw hm hself) hkeys).mpr
        ((hrest t hcommits).mpr hall)
      exact ⟨s', commit_cons_eq_ok.mpr ⟨t, ht, h⟩, hr⟩

/-! ### Runs of commits -/

/-- All commits return, and after each one the database reads as the account map. -/
def Tracks (K : Keccak256) : List Changes → EvmState → AccountMap → Prop
  | [], s, m => s.Represents K m
  | changes :: rest, s, m => s.Represents K m ∧
    ∃ s', s.commit K changes = .ok s' ∧ Tracks K rest s' (m.commit changes)

/-- Every commit of a run can be stored in the state it meets. -/
def AllFaithful (K : Keccak256) : List Changes → EvmState → Prop
  | [], _ => True
  | changes :: rest, s => s.Faithful changes ∧ After (s.commit K changes) (AllFaithful K rest)

def AllFaithful.decide (K : Keccak256) :
    (commits : List Changes) → (s : EvmState) → Decidable (AllFaithful K commits s)
  | [], _ => .isTrue trivial
  | changes :: rest, s =>
    have : DecidablePred (AllFaithful K rest) := AllFaithful.decide K rest
    inferInstanceAs (Decidable (s.Faithful changes ∧
      After (s.commit K changes) (AllFaithful K rest)))

instance (commits : List Changes) (s : EvmState) : Decidable (AllFaithful K commits s) :=
  AllFaithful.decide K commits s

theorem Tracks.represents {commits : List Changes} (h : Tracks K commits s m) :
    s.Represents K m := by
  cases commits with
  | nil => exact h
  | cons changes rest => exact h.1

/-- **Database faithfulness.** From a database in good order that reads as some account map,
a sequence of commits keeps reading as the map exactly when every account committed can be
stored in the state it meets. -/
theorem tracks_iff {commits : List Changes} (hw : s.WF K) (hm : s.Represents K m)
    (hkeys : ∀ changes ∈ commits, (changes.map Prod.fst).Nodup) :
    Tracks K commits s m ↔ AllFaithful K commits s := by
  induction commits generalizing s m with
  | nil => exact ⟨fun _ => trivial, fun _ => hm⟩
  | cons changes rest ih =>
    obtain ⟨hhead, hkeys⟩ := List.forall_mem_cons.mp hkeys
    have hone := commit_represents_iff hw hm hhead
    constructor
    · rintro ⟨-, s', hs', hrest⟩
      refine ⟨hone.mp ⟨s', hs', hrest.represents⟩, fun t ht => ?_⟩
      cases hs'.symm.trans ht
      exact (ih (commit_frame hw hs').1 hrest.represents hkeys).mp hrest
    · rintro ⟨hfaithful, hrest⟩
      obtain ⟨s', hs', hr⟩ := hone.mpr hfaithful
      exact ⟨hm, s', hs', (ih (commit_frame hw hs').1 hr hkeys).mpr (hrest s' hs')⟩

/-- A hash that tags what it hashes. -/
def tagHash : Keccak256 where
  digest code := 1 :: code
  injective := List.cons_injective
  ne_zero code h := by
    unfold B256.zero at h
    rw [List.replicate_succ] at h
    exact absurd (List.cons.inj h).1 (by decide)

/-- No accounts. -/
def emptyMap : AccountMap := ⟨fun _ => none, fun _ _ => 0⟩

theorem empty_wf : (withUnifiedState .new).WF K where
  native := by
    intro a b hb
    simp [UnifiedState.getBalance, UnifiedState.new, withUnifiedState] at hb
  code := by simp [withUnifiedState]
  known := by simp [withUnifiedState]

theorem empty_represents : (withUnifiedState .new).Represents K emptyMap := by
  refine empty_wf.represents_iff_agree.mpr ⟨fun a => ?_, fun a key => ?_⟩
  · have hraw : (UnifiedState.new).nativeRaw a = 0 :=
      UnifiedState.nativeRaw_none (by simp [UnifiedState.getBalance, UnifiedState.new])
    simp [accountAt, withUnifiedState, emptyMap, hraw]
  · simp [getStorage, withUnifiedState, emptyMap]

/-- A contract with code and a slot is created, calls and is emptied. -/
def contractCommits : List Changes :=
  [[(1, ⟨100, 1, some [], false, []⟩), (7, ⟨5, 1, some [0x60], false, [(0, 9)]⟩)],
    [(7, ⟨0, 1, some [0x60], false, [(0, 0), (1, 2)]⟩), (1, ⟨105, 2, none, false, []⟩)],
    [(7, ⟨0, 1, some [0x60], true, []⟩)]]

/-- The database tracks the life of a contract that is emptied before it self-destructs. -/
theorem tracks_contract : Tracks tagHash contractCommits (withUnifiedState .new) emptyMap :=
  (tracks_iff empty_wf empty_represents (by decide)).mpr (by decide +kernel)

/-- A contract that self-destructs with a balance reads as an account with that balance. -/
theorem selfdestructed_keeps_balance : ∃ commits s,
    (∀ changes ∈ commits, (changes.map Prod.fst).Nodup) ∧
    (∀ changes ∈ commits, ∀ p ∈ changes, p.2.balance.val < 2 ^ 128) ∧
    commits.foldlM (fun s changes => s.commit tagHash changes) (withUnifiedState .new) =
      .ok s ∧
    s.basic 7 = .ok (some ⟨5, 0, .zero, none⟩) ∧
    ¬ Tracks tagHash commits (withUnifiedState .new) emptyMap := by
  have hnodup : ∀ changes ∈ ([[(7, ⟨5, 1, some [0x60], false, []⟩)],
      [(7, ⟨0, 1, some [0x60], true, []⟩)]] : List Changes),
      (changes.map Prod.fst).Nodup := by decide
  obtain ⟨s, hs, hbasic⟩ := exists_of_test
    (x := ([[(7, ⟨5, 1, some [0x60], false, []⟩)],
      [(7, ⟨0, 1, some [0x60], true, []⟩)]] : List Changes).foldlM
        (fun s changes => s.commit tagHash changes) (withUnifiedState .new))
    (p := fun s => match s.basic 7 with
      | .ok info => decide (info = some ⟨5, 0, .zero, none⟩)
      | .error _ => false)
    (by decide +kernel)
  refine ⟨_, s, hnodup, by decide, hs, ?_, fun h => ?_⟩
  · split at hbasic
    · rename_i info hinfo
      rw [hinfo, of_decide_eq_true hbasic]
    · cases hbasic
  · exact absurd ((tracks_iff empty_wf empty_represents hnodup).mp h) (by decide +kernel)

end EvmState

end Hypercore
