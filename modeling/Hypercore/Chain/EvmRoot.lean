import Hypercore.Chain.EvmSnapshot
import Hypercore.Evm.Restart
import Hypercore.Lib.Codec
import Hypercore.Lib.Sorting
/-!
# Hypercore.Chain.EvmRoot

The EVM state root: a hash of three hashes, of accounts, storage and code.

What is hashed are blocks of one width, so that the bytes tell the blocks. As for the Merkle
roots, Keccak-256 is any function to 32 bytes, and binding asks only that nothing which is
hashed for the two roots collides. An account without code is hashed like one whose code hash
is zero, which is how the database reads it too; no account of a state that operations have
led to has that hash.
-/

namespace Hypercore

namespace EvmAccount

/-- What is hashed for an account. -/
def bytes (addr : Address) (account : EvmAccount) : List UInt8 :=
  addressBytes addr ++ leBytes 8 account.nonce ++ account.codeHash.getD .zero

/-- What the root has of an account: no code hash counts as the zero hash. -/
def committed (account : EvmAccount) : Nat × B256 := (account.nonce, account.codeHash.getD .zero)

end EvmAccount

namespace EvmState

variable (keccak256 : List UInt8 → Bytes32) (ord : HashOrder) (s : EvmState)

/-- What is hashed for a slot. -/
def slotBytes (addr : Address) (key value : U256) : List UInt8 :=
  addressBytes addr ++ leBytes 32 key.val ++ leBytes 32 value.val

/-- What is hashed for the accounts. -/
def accountsData : List UInt8 :=
  "EVM_ACCOUNTS_ROOT_V1".toUTF8.toList ++ (ord.sortedKeys s.accounts).flatMap fun addr =>
    match s.accounts[addr]? with
    | some account => account.bytes addr
    | none => []

/-- What is hashed for the storage. -/
def storageData : List UInt8 :=
  "EVM_STORAGE_ROOT_V1".toUTF8.toList ++ (ord.sortedKeys s.storage).flatMap fun addr =>
    match s.storage[addr]? with
    | some slots => (ord.sortedKeys slots).flatMap fun key =>
      match slots[key]? with
      -- zero values are skipped
      | some value => if value = 0 then [] else slotBytes addr key value
      | none => []
    | none => []

/-- What is hashed for the code: each hash with the length of its code. -/
def codeData : List UInt8 :=
  "EVM_CODE_ROOT_V1".toUTF8.toList ++ (ord.sortedKeys s.code).flatMap fun hash =>
    match s.code[hash]? with
    | some code => hash ++ leBytes 8 code.length
    | none => []

/-- `compute_accounts_root`. -/
def computeAccountsRoot : Bytes32 := keccak256 (s.accountsData ord)

/-- `compute_storage_root`. -/
def computeStorageRoot : Bytes32 := keccak256 (s.storageData ord)

/-- `compute_code_root`. -/
def computeCodeRoot : Bytes32 := keccak256 (s.codeData ord)

/-- What is hashed for the state. -/
def stateData : List UInt8 :=
  "EVM_STATE_ROOT_V1".toUTF8.toList ++ (s.computeAccountsRoot keccak256 ord).val ++
    (s.computeStorageRoot keccak256 ord).val ++ (s.computeCodeRoot keccak256 ord).val

/-- `compute_state_root`. -/
def computeStateRoot : Bytes32 := keccak256 (s.stateData keccak256 ord)

/-- All that is hashed for the root. -/
def rootData : List (List UInt8) :=
  [s.stateData keccak256 ord, s.accountsData ord, s.storageData ord, s.codeData ord]

/-- Slots of an account that are not zero. -/
def slotsOf (addr : Address) (row : FinMap U256 U256) : List (Address × U256 × U256) :=
  row.toList.flatMap fun q => if q.2 = 0 then [] else [(addr, q.1, q.2)]

/-- All slots that are not zero. -/
def nonZeroSlots : List (Address × U256 × U256) :=
  s.storage.toList.flatMap fun p => slotsOf p.1 p.2

/-- The accounts fit their types: a `u64` nonce, and a code hash of 32 bytes. -/
structure Representable : Prop where
  nonce : ∀ (a : Address) (x : EvmAccount), s.accounts[a]? = some x → x.nonce < 2 ^ 64
  codeHash : ∀ (a : Address) (x : EvmAccount) (hash : B256), s.accounts[a]? = some x →
    x.codeHash = some hash → hash.length = 32

variable {keccak256 ord s} {ord' : HashOrder} {t : EvmState} {a : Address} {key value : U256}

/-! ### What is hashed, in order -/

theorem accountsData_eq : s.accountsData ord = "EVM_ACCOUNTS_ROOT_V1".toUTF8.toList ++
    s.accounts.toList.flatMap fun p => p.2.bytes p.1 := by
  unfold accountsData
  rw [HashOrder.flatMap_sortedKeys (f := fun a x => x.bytes a) ord fun a x hx => by rw [hx]]

theorem codeData_eq : s.codeData ord = "EVM_CODE_ROOT_V1".toUTF8.toList ++
    s.code.toList.flatMap fun p => p.1 ++ leBytes 8 p.2.length := by
  unfold codeData
  rw [HashOrder.flatMap_sortedKeys (f := fun hash code => hash ++ leBytes 8 code.length) ord
    fun hash code hcode => by rw [hcode]]

theorem storageData_eq : s.storageData ord = "EVM_STORAGE_ROOT_V1".toUTF8.toList ++
    s.nonZeroSlots.flatMap fun x => slotBytes x.1 x.2.1 x.2.2 := by
  have hrow : ∀ (addr : Address) (row : FinMap U256 U256),
      ((ord.sortedKeys row).flatMap fun key =>
        match row[key]? with
        | some value => if value = 0 then [] else slotBytes addr key value
        | none => []) =
      (slotsOf addr row).flatMap fun x => slotBytes x.1 x.2.1 x.2.2 := by
    intro addr row
    unfold slotsOf
    rw [List.flatMap_assoc, HashOrder.flatMap_sortedKeys
      (f := fun key value => if value = 0 then [] else slotBytes addr key value) ord
      fun key value hvalue => by rw [hvalue]]
    refine List.flatMap_congr fun q _ => ?_
    split
    · rfl
    · exact (List.flatMap_singleton ..).symm
  unfold storageData nonZeroSlots
  rw [List.flatMap_assoc, HashOrder.flatMap_sortedKeys
    (f := fun addr row => (slotsOf addr row).flatMap fun x => slotBytes x.1 x.2.1 x.2.2) ord
    fun addr row hget => by rw [hget]; exact hrow addr row]

/-! ### Slots -/

theorem mem_slotsOf {row : FinMap U256 U256} {x : Address × U256 × U256} :
    x ∈ slotsOf a row ↔ x.1 = a ∧ x.2.2 ≠ 0 ∧ row[x.2.1]? = some x.2.2 := by
  unfold slotsOf
  rw [List.mem_flatMap]
  constructor
  · rintro ⟨q, hq, hx⟩
    by_cases hzero : q.2 = 0
    · rw [if_pos hzero] at hx
      cases hx
    · rw [if_neg hzero] at hx
      obtain rfl := List.mem_singleton.mp hx
      exact ⟨rfl, hzero, FinMap.mem_toList.mp hq⟩
  · rintro ⟨rfl, hzero, hget⟩
    refine ⟨x.2, FinMap.mem_toList.mpr hget, ?_⟩
    rw [if_neg hzero]
    exact .head _

theorem mem_nonZeroSlots : (a, key, value) ∈ s.nonZeroSlots ↔
    value ≠ 0 ∧ s.getStorage a key = value := by
  unfold nonZeroSlots EvmState.getStorage
  rw [List.mem_flatMap]
  constructor
  · rintro ⟨p, hp, hx⟩
    obtain ⟨rfl, hzero, hget⟩ := mem_slotsOf.mp hx
    rw [FinMap.mem_toList.mp hp, Option.bind_some, hget]
    exact ⟨hzero, rfl⟩
  · rintro ⟨hzero, hget⟩
    cases hrow : s.storage[a]? with
    | none =>
      rw [hrow] at hget
      exact absurd hget.symm hzero
    | some row =>
      rw [hrow, Option.bind_some] at hget
      refine ⟨(a, row), FinMap.mem_toList.mpr hrow, mem_slotsOf.mpr ⟨rfl, hzero, ?_⟩⟩
      cases hslot : row[key]? with
      | none =>
        rw [hslot] at hget
        exact absurd hget.symm hzero
      | some v =>
        rw [hslot] at hget
        exact congrArg some hget

/-- Storage is told by the slots that are not zero. -/
theorem getStorage_congr (h : s.nonZeroSlots = t.nonZeroSlots) (a : Address) (key : U256) :
    s.getStorage a key = t.getStorage a key := by
  have hmem : ∀ value ≠ 0, (s.getStorage a key = value ↔ t.getStorage a key = value) := by
    intro value hzero
    have hs : (a, key, value) ∈ s.nonZeroSlots ↔ _ := mem_nonZeroSlots
    rw [h, mem_nonZeroSlots, and_congr_right_iff] at hs
    exact (hs hzero).symm
  by_cases hs : s.getStorage a key = 0
  · by_cases ht : t.getStorage a key = 0
    · rw [hs, ht]
    · exact (hmem _ ht).mpr rfl
  · exact ((hmem _ hs).mp rfl).symm

theorem nonZeroSlots_congr (h : ∀ a key, s.getStorage a key = t.getStorage a key) :
    s.nonZeroSlots = t.nonZeroSlots := by
  refine FinMap.flatMap_toList_congr (f := slotsOf) fun a => ?_
  -- a missing row is like one without slots
  have hrow : ∀ row : Option (FinMap U256 U256),
      (row.map (slotsOf a)).getD [] = slotsOf a (row.getD ∅) := by
    intro row
    cases row <;> rfl
  -- a missing slot is like one that is zero
  have hslot : ∀ (s : EvmState) (key : U256),
      ((((s.storage[a]?).getD ∅)[key]?).map fun value =>
        if value = 0 then [] else [(a, key, value)]).getD [] =
      if s.getStorage a key = 0 then [] else [(a, key, s.getStorage a key)] := by
    intro s key
    unfold EvmState.getStorage
    cases s.storage[a]? with
    | none =>
      rw [Option.getD_none, FinMap.get_empty]
      rfl
    | some row =>
      rw [Option.getD_some, Option.bind_some]
      cases row[key]? <;> rfl
  rw [hrow, hrow]
  refine FinMap.flatMap_toList_congr
    (f := fun key value => if value = 0 then [] else [(a, key, value)]) fun key => ?_
  rw [hslot, hslot, h a key]

/-- **Histories.** The root is one of the nonces, code hashes, slots that are not zero and code,
in whatever order the maps are visited. -/
theorem computeStateRoot_congr (haccounts : s.accounts = t.accounts)
    (hstorage : ∀ a key, s.getStorage a key = t.getStorage a key) (hcode : s.code = t.code) :
    s.computeStateRoot keccak256 ord = t.computeStateRoot keccak256 ord' := by
  have hslots := nonZeroSlots_congr hstorage
  unfold computeStateRoot stateData computeAccountsRoot computeStorageRoot computeCodeRoot
  rw [accountsData_eq, accountsData_eq, storageData_eq, storageData_eq, codeData_eq, codeData_eq,
    haccounts, hslots, hcode]

/-! ### Binding -/

theorem slotBytes_inj {b : Address} {key' value' : U256}
    (h : slotBytes a key value = slotBytes b key' value') :
    a = b ∧ key = key' ∧ value = value' := by
  obtain ⟨hfront, hvalue⟩ := List.append_inj h (by simp [length_leBytes])
  obtain ⟨haddr, hkey⟩ := List.append_inj hfront (by simp)
  have hword : ∀ x y : U256, leBytes 32 x.val = leBytes 32 y.val → x = y := fun x y hxy =>
    Fin.ext (leBytes_inj x.isLt y.isLt hxy)
  exact ⟨addressBytes_injective haddr, hword _ _ hkey, hword _ _ hvalue⟩

theorem nonZeroSlots_of_storageData (h : s.storageData ord = t.storageData ord') :
    s.nonZeroSlots = t.nonZeroSlots := by
  rw [storageData_eq, storageData_eq] at h
  have hlength : ∀ x : Address × U256 × U256, (slotBytes x.1 x.2.1 x.2.2).length = 84 := by
    simp [slotBytes, length_leBytes]
  have hmap := List.map_eq_of_flatMap_eq (g := id) (by decide) (fun x _ => hlength x)
    (fun x _ => hlength x) (fun x _ y _ hxy => ?_) (List.append_cancel_left h)
  · rw [← List.map_id s.nonZeroSlots, hmap, List.map_id]
  · obtain ⟨haddr, hkey, hvalue⟩ := slotBytes_inj hxy
    exact Prod.ext haddr (Prod.ext hkey hvalue)

theorem committed_of_bytes {b : Address} {x y : EvmAccount} (hx : x.nonce < 2 ^ 64)
    (hy : y.nonce < 2 ^ 64) (h : x.bytes a = y.bytes b) :
    a = b ∧ x.committed = y.committed := by
  obtain ⟨hfront, hhash⟩ := List.append_inj h (by simp [length_leBytes])
  obtain ⟨haddr, hnonce⟩ := List.append_inj hfront (by simp)
  exact ⟨addressBytes_injective haddr, Prod.ext (leBytes_inj hx hy hnonce) hhash⟩

theorem Representable.length_bytes (h : s.Representable) {x : EvmAccount}
    (hx : s.accounts[a]? = some x) : (x.bytes a).length = 60 := by
  have hhash : (x.codeHash.getD .zero).length = 32 := by
    cases hc : x.codeHash with
    | none => rfl
    | some hash => exact h.codeHash a x hash hx hc
  simp [EvmAccount.bytes, length_leBytes, hhash]

theorem committed_of_accountsData (hs : s.Representable) (ht : t.Representable)
    (h : s.accountsData ord = t.accountsData ord') (a : Address) :
    (s.accounts[a]?).map EvmAccount.committed = (t.accounts[a]?).map EvmAccount.committed := by
  rw [accountsData_eq, accountsData_eq] at h
  have hmap := List.map_eq_of_flatMap_eq (g := fun p => (p.1, p.2.committed)) (by decide)
    (fun p hp => hs.length_bytes (FinMap.mem_toList.mp hp))
    (fun p hp => ht.length_bytes (FinMap.mem_toList.mp hp))
    (fun p hp q hq hpq => ?_) (List.append_cancel_left h)
  · have hmem : ∀ (s : EvmState) (c : Nat × B256),
        (s.accounts[a]?).map EvmAccount.committed = some c ↔
          (a, c) ∈ s.accounts.toList.map fun p => (p.1, p.2.committed) := by
      intro s c
      rw [Option.map_eq_some_iff, List.mem_map]
      constructor
      · rintro ⟨x, hx, rfl⟩
        exact ⟨(a, x), FinMap.mem_toList.mpr hx, rfl⟩
      · rintro ⟨p, hp, hc⟩
        obtain ⟨rfl, rfl⟩ := Prod.mk.inj hc
        exact ⟨p.2, FinMap.mem_toList.mp hp, rfl⟩
    refine Option.ext fun c => ?_
    rw [hmem, hmem, hmap]
  · obtain ⟨haddr, hcommitted⟩ := committed_of_bytes
      (hs.nonce _ _ (FinMap.mem_toList.mp hp)) (ht.nonce _ _ (FinMap.mem_toList.mp hq)) hpq
    exact Prod.ext haddr hcommitted

/-- Under a hash without collisions on what is hashed, equal roots have equal parts. -/
theorem data_of_computeStateRoot
    (hfree : Set.InjOn keccak256
      {x | x ∈ s.rootData keccak256 ord ∨ x ∈ t.rootData keccak256 ord'})
    (h : s.computeStateRoot keccak256 ord = t.computeStateRoot keccak256 ord') :
    s.accountsData ord = t.accountsData ord' ∧ s.storageData ord = t.storageData ord' ∧
      s.codeData ord = t.codeData ord' := by
  have hin : ∀ x ∈ s.rootData keccak256 ord, ∀ y ∈ t.rootData keccak256 ord',
      keccak256 x = keccak256 y → x = y := fun x hx y hy => hfree (.inl hx) (.inr hy)
  have hdata := hin _ (by simp [rootData]) _ (by simp [rootData]) h
  unfold stateData at hdata
  have hlength : ∀ x y : Bytes32, x.val.length = y.val.length := fun x y =>
    x.property.trans y.property.symm
  obtain ⟨hfront, hcode⟩ := List.append_inj' hdata (hlength _ _)
  obtain ⟨hfront, hstorage⟩ := List.append_inj' hfront (hlength _ _)
  have haccounts := List.append_cancel_left hfront
  exact ⟨hin _ (by simp [rootData]) _ (by simp [rootData]) (Subtype.ext haccounts),
    hin _ (by simp [rootData]) _ (by simp [rootData]) (Subtype.ext hstorage),
    hin _ (by simp [rootData]) _ (by simp [rootData]) (Subtype.ext hcode)⟩

/-! ### States the program builds -/

/-- No account has the zero hash for its code. -/
def Hashed (s : EvmState) : Prop :=
  ∀ (a : Address) (x : EvmAccount), s.accounts[a]? = some x → x.codeHash ≠ some .zero

/-- The states that operations lead to, with changes of the shared balance sheet, rollbacks and
restarts at any point. -/
inductive Reached (K : Keccak256) : EvmState → Prop
  | new (u : UnifiedState) : Reached K (withUnifiedState u)
  | op {s s' : EvmState} (op : Op) : Reached K s → op.apply K s = .ok s' → Reached K s'
  | balances {s : EvmState} (u : UnifiedState) : Reached K s → Reached K (s.setUnified u)
  | rollback {s t t' : EvmState} (ord : HashOrder) : Reached K s → Reached K t →
    t.restoreSnapshot ord s.snapshot = .ok t' → Reached K t'
  | restart {s : EvmState} (ord : HashOrder) (u : UnifiedState) : Reached K s →
    Reached K ((withUnifiedState u).restore (s.persisted ord))

variable {K : Keccak256} {s' : EvmState}

theorem Hashed.getOrCreateAccount (h : s.Hashed) (a : Address) :
    (s.getOrCreateAccount a).codeHash ≠ some .zero := by
  unfold EvmState.getOrCreateAccount
  cases hx : s.accounts[a]? with
  | none => exact nofun
  | some x => exact h a x hx

theorem Hashed.putAccount (h : s.Hashed) {x : EvmAccount} (hx : x.codeHash ≠ some .zero) :
    (s.putAccount a x).Hashed := by
  intro b y hy
  unfold EvmState.putAccount at hy
  dsimp only at hy
  rw [FinMap.get_insert] at hy
  split at hy
  · obtain rfl := Option.some.inj hy
    exact hx
  · exact h b y hy

theorem Hashed.touch (h : s.Hashed) (a : Address) : (s.touch a).Hashed :=
  h.putAccount (h.getOrCreateAccount a)

theorem Hashed.setUnified (h : s.Hashed) (u : UnifiedState) : (s.setUnified u).Hashed := h

theorem Hashed.setNonce (h : s.Hashed) (a : Address) (nonce : Nat) :
    (s.setNonce a nonce).Hashed :=
  h.putAccount (h.getOrCreateAccount a)

theorem Hashed.setBalance {v : U256} (h : s.Hashed) (hs : s.setBalance a v = .ok s') :
    s'.Hashed := by
  obtain ⟨u, -, hs⟩ := Exec.bind_inv hs
  cases Exec.pure_inv hs
  exact (h.setUnified u).touch a

/-- **Step.** -/
theorem Hashed.apply {op : Op} (h : s.Hashed) (hs : op.apply K s = .ok s') : s'.Hashed := by
  cases op with
  | setBalance a balance => exact h.setBalance hs
  | addBalance a amount =>
    obtain ⟨u, -, hs⟩ := Exec.bind_inv hs
    cases Exec.pure_inv hs
    exact (h.setUnified u).touch a
  | subBalance a amount =>
    obtain ⟨r, hr, hs⟩ := Exec.bind_inv hs
    cases Exec.pure_inv hs
    obtain ⟨r, -, hr⟩ := Exec.bind_inv hr
    cases Exec.pure_inv hr
    exact h
  | transferBalance sender receiver amount =>
    obtain ⟨r, hr, hs⟩ := Exec.bind_inv hs
    cases Exec.pure_inv hs
    unfold EvmState.transferBalance at hr
    split at hr
    · cases Exec.pure_inv hr
      exact h
    · obtain ⟨r, -, hr⟩ := Exec.bind_inv hr
      cases Exec.pure_inv hr
      exact ((h.setUnified _).touch sender).touch receiver
  | incrementNonce a =>
    obtain ⟨nonce, -, hs⟩ := Exec.bind_inv hs
    cases Exec.pure_inv hs
    exact h.setNonce a nonce
  | setNonce a nonce =>
    cases Exec.pure_inv hs
    exact h.setNonce a nonce
  | setCode a code =>
    cases Exec.pure_inv hs
    exact Hashed.putAccount (s := { s with code := s.code.insert (K.digest code) code }) h
      fun hzero => K.ne_zero code (Option.some.inj hzero)
  | setStorage a key value =>
    cases Exec.pure_inv hs
    exact h
  | deleteAccount a =>
    cases Exec.pure_inv hs
    intro b y hy
    unfold EvmState.deleteAccount at hy
    dsimp only at hy
    rw [FinMap.get_erase] at hy
    split at hy
    · cases hy
    · exact h b y hy

/-- **Rollback.** -/
theorem Hashed.restoreSnapshot (h : s.Hashed) {ord : HashOrder}
    (ht : t.restoreSnapshot ord s.snapshot = .ok s') : s'.Hashed := by
  refine Exec.foldlM_induction (P := Hashed) ht (show Hashed _ from h) fun w p w' _ hw hstep => ?_
  obtain ⟨balance, -, hset⟩ := Exec.bind_inv hstep
  exact hw.setBalance hset

/-- **Restart.** -/
theorem Hashed.restore_persisted (h : s.Hashed) (ord : HashOrder) (u : UnifiedState) :
    ((withUnifiedState u).restore (s.persisted ord)).Hashed := by
  unfold restore
  split
  · intro a x hx
    have heq : FinMap.insertAll ∅ (ord.visit s.accounts.toList) = s.accounts :=
      HashOrder.insertAll_visit ord s.accounts
    rw [show ((withUnifiedState u).accounts) = ∅ from rfl] at hx
    exact h a x (heq ▸ hx)
  · intro a x hx
    rw [show ((withUnifiedState u).accounts)[a]? = none from FinMap.get_empty a] at hx
    cases hx

theorem Reached.hashed (h : s.Reached K) : s.Hashed := by
  induction h with
  | new u =>
    intro a x hx
    rw [show ((withUnifiedState u).accounts)[a]? = none from FinMap.get_empty a] at hx
    cases hx
  | op _ _ hs ih => exact ih.apply hs
  | balances u _ ih => exact ih.setUnified u
  | rollback _ _ _ ht ih => exact ih.restoreSnapshot ht
  | restart ord u _ ih => exact ih.restore_persisted ord u

/-- Without zero hashes, an account is what the root has of it. -/
theorem accounts_of_committed (hs : s.Hashed) (ht : t.Hashed)
    (h : ∀ a : Address, (s.accounts[a]?).map EvmAccount.committed =
      (t.accounts[a]?).map EvmAccount.committed) : s.accounts = t.accounts := by
  have hinj : ∀ x y : EvmAccount, x.codeHash ≠ some .zero → y.codeHash ≠ some .zero →
      x.committed = y.committed → x = y := by
    rintro ⟨n, c⟩ ⟨m, d⟩ hx hy hxy
    obtain ⟨rfl, hhash⟩ := Prod.mk.inj hxy
    cases c <;> cases d <;> simp_all [EvmAccount.committed]
  refine Std.ExtTreeMap.ext_getElem? fun a => ?_
  have ha := h a
  cases hx : s.accounts[a]? with
  | none =>
    rw [hx] at ha
    exact (Option.map_eq_none_iff.mp ha.symm).symm
  | some x =>
    rw [hx] at ha
    obtain ⟨y, hy, hxy⟩ := Option.map_eq_some_iff.mp ha.symm
    rw [hy, hinj x y (hs a x hx) (ht a y hy) hxy.symm]

/-- **The state root.** Equal nonces, code hashes, slots that are not zero and code have equal
roots. Equal roots, when nothing that is hashed for them collides, have equal nonces, equal code
hashes up to the zero hash, and equal slots that are not zero; in states that the program builds
the accounts themselves are equal. -/
theorem compute_state_root_commits (K : Keccak256) (keccak256 : List UInt8 → Bytes32)
    (s t : EvmState) (ord ord' : HashOrder) :
    (s.accounts = t.accounts → (∀ a key, s.getStorage a key = t.getStorage a key) →
      s.code = t.code → s.computeStateRoot keccak256 ord = t.computeStateRoot keccak256 ord') ∧
    (s.Representable → t.Representable →
      Set.InjOn keccak256 {x | x ∈ s.rootData keccak256 ord ∨ x ∈ t.rootData keccak256 ord'} →
      s.computeStateRoot keccak256 ord = t.computeStateRoot keccak256 ord' →
      (∀ a : Address, (s.accounts[a]?).map EvmAccount.committed =
        (t.accounts[a]?).map EvmAccount.committed) ∧
      (∀ a key, s.getStorage a key = t.getStorage a key) ∧
      (s.Reached K → t.Reached K → s.accounts = t.accounts)) := by
  refine ⟨computeStateRoot_congr, fun hs ht hfree hroot => ?_⟩
  obtain ⟨haccounts, hstorage, -⟩ := data_of_computeStateRoot hfree hroot
  have hcommitted := committed_of_accountsData hs ht haccounts
  have hslots := getStorage_congr (nonZeroSlots_of_storageData hstorage)
  exact ⟨hcommitted, hslots, fun hrs hrt => accounts_of_committed hrs.hashed hrt.hashed hcommitted⟩

/-- A function that has no collisions between data of different lengths. -/
def sizeHash (data : List UInt8) : Bytes32 :=
  .filled (UInt8.ofNat data.length)

/-- A hash of code whose digests of one byte have 32. -/
def paddedKeccak : Keccak256 where
  digest code := List.replicate 31 1 ++ code
  injective _ _ h := List.append_cancel_left h
  ne_zero code h := absurd (show some (1 : UInt8) = some 0 from congrArg List.head? h) (by decide)

/-- A contract with one slot. -/
def contract : EvmState :=
  (((withUnifiedState .new).setNonce 1 7).setCode paddedKeccak 1 [5]).setStorage 1 2 3

/-- A slot that is cleared leaves the root as it was. -/
theorem compute_state_root_commits_cleared :
    contract.computeStateRoot sizeHash .sorted =
      (contract.setStorage 4 9 0).computeStateRoot sizeHash .reversed ∧
    contract.accounts = (contract.setStorage 4 9 0).accounts := by
  have hreached : contract.Reached paddedKeccak :=
    .op (.setStorage 1 2 3) (.op (.setCode 1 [5]) (.op (.setNonce 1 7) (.new .new) rfl) rfl) rfl
  have hcleared : (contract.setStorage 4 9 0).Reached paddedKeccak :=
    .op (.setStorage 4 9 0) hreached rfl
  have hget : ∀ (a : Address) (x : EvmAccount), contract.accounts[a]? = some x →
      x = ⟨7, some (paddedKeccak.digest [5])⟩ := by
    intro a x hx
    have hmem := (FinMap.mem_toList (p := (a, x))).mpr hx
    have hlist : contract.accounts.toList = [(1, ⟨7, some (paddedKeccak.digest [5])⟩)] := by
      decide +kernel
    rw [hlist] at hmem
    exact (Prod.mk.inj (List.mem_singleton.mp hmem)).2
  have hrepr : contract.Representable := by
    refine ⟨fun a x hx => ?_, fun a x hash hx hhash => ?_⟩
    · rw [hget a x hx]
      show 7 < 2 ^ 64
      decide
    · rw [hget a x hx] at hhash
      obtain rfl := Option.some.inj hhash
      rfl
  have hstorage : ∀ a key, contract.getStorage a key =
      (contract.setStorage 4 9 0).getStorage a key := by
    intro a key
    unfold EvmState.setStorage EvmState.getStorage
    dsimp only
    rw [FinMap.get_insert]
    split
    · next ha =>
      subst ha
      rw [show contract.storage[(4 : Address)]? = none by decide +kernel, Option.bind_none,
        Option.getD_none, Option.bind_some, FinMap.get_insert]
      split
      · rfl
      · rw [Option.getD_none, FinMap.get_empty]
        rfl
    · rfl
  obtain ⟨hroot, hbinds⟩ := compute_state_root_commits paddedKeccak sizeHash contract
    (contract.setStorage 4 9 0) .sorted .reversed
  have hsame := hroot rfl hstorage rfl
  have hfree : ∀ x ∈ contract.rootData sizeHash .sorted ++
        (contract.setStorage 4 9 0).rootData sizeHash .reversed,
      ∀ y ∈ contract.rootData sizeHash .sorted ++
        (contract.setStorage 4 9 0).rootData sizeHash .reversed,
      sizeHash x = sizeHash y → x = y := by
    decide +kernel
  refine ⟨hsame, (hbinds hrepr ⟨hrepr.nonce, hrepr.codeHash⟩ ?_ hsame).2.2 hreached hcleared⟩
  exact fun x hx y hy => hfree x (List.mem_append.mpr hx) y (List.mem_append.mpr hy)

/-- One account of nonce one, without or with the zero hash for its code. -/
def oneAccount (codeHash : Option B256) : EvmState :=
  (withUnifiedState .new).putAccount 1 ⟨1, codeHash⟩

/-- No hash tells a missing code hash from the zero hash. -/
theorem zero_code_hash_hidden :
    (oneAccount none).Representable ∧ (oneAccount (some .zero)).Representable ∧
    (∀ (keccak256 : List UInt8 → Bytes32) (ord ord' : HashOrder),
      (oneAccount none).computeStateRoot keccak256 ord =
        (oneAccount (some .zero)).computeStateRoot keccak256 ord') ∧
    (oneAccount none).getCodeHash 1 ≠ (oneAccount (some .zero)).getCodeHash 1 := by
  have hget : ∀ (c : Option B256) (a : Address) (x : EvmAccount),
      (oneAccount c).accounts[a]? = some x → x = ⟨1, c⟩ := by
    intro c a x hx
    unfold oneAccount putAccount at hx
    dsimp only at hx
    rw [FinMap.get_insert] at hx
    split at hx
    · exact (Option.some.inj hx).symm
    · cases hx
  have hrepr : ∀ c : Option B256, (∀ hash, c = some hash → hash.length = 32) →
      (oneAccount c).Representable := by
    intro c hc
    refine ⟨fun a x hx => ?_, fun a x hash hx hhash => ?_⟩
    · rw [hget c a x hx]
      show 1 < 2 ^ 64
      decide
    · rw [hget c a x hx] at hhash
      exact hc hash hhash
  refine ⟨hrepr _ nofun, hrepr _ fun hash h => ?_, fun keccak256 ord ord' => ?_, by decide⟩
  · obtain rfl := Option.some.inj h
    rfl
  · have haccounts : (oneAccount none).accountsData ord =
        (oneAccount (some .zero)).accountsData ord' := by
      rw [accountsData_eq, accountsData_eq]
      rfl
    have hstorage : (oneAccount none).storageData ord =
        (oneAccount (some .zero)).storageData ord' := by
      rw [storageData_eq, storageData_eq]
      rfl
    have hcode : (oneAccount none).codeData ord = (oneAccount (some .zero)).codeData ord' := by
      rw [codeData_eq, codeData_eq]
      rfl
    unfold computeStateRoot stateData computeAccountsRoot computeStorageRoot computeCodeRoot
    rw [haccounts, hstorage, hcode]

end EvmState

end Hypercore
