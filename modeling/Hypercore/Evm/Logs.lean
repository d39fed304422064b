import Hypercore.Evm.Executor
import Hypercore.Lib.Sorting
import Hypercore.Primitives.Text
/-!
# Hypercore.Evm.Logs

The receipts of executed transactions, and `eth_getLogs`, which searches them.

Receipts are in a hash map by transaction hash. The logs that match are collected in its
iteration order and sorted by block number and log index. A log index counts the logs of one
transaction only, so that logs of one block tie.
-/

namespace Hypercore

/-! ### Numbers and bytes as text -/

/-- `{:x}` after `0x`. -/
def formatU64 (v : UInt64) : String := "0x" ++ String.ofList (Nat.toDigits 16 v.toNat)

def formatBytes [HexCrate] (bytes : Bytes) : String := "0x" ++ hexEncode bytes

def formatAddress [HexCrate] (a : Address) : String := "0x" ++ hexEncode (addressBytes a)

/-- Why a text is not a number. -/
inductive ParseIntError
  | empty
  | invalidDigit
  | posOverflow
  deriving DecidableEq, Repr

def ParseIntError.message : ParseIntError → String
  | empty => "cannot parse integer from empty string"
  | invalidDigit => "invalid digit found in string"
  | posOverflow => "number too large to fit in target type"

/-- One more digit, with the checks of both operations. -/
def pushHexDigit (acc : UInt64) (c : Char) : Except ParseIntError UInt64 :=
  match hexDigit c with
  | none => .error .invalidDigit
  | some d =>
    if acc.toNat * 16 + d < 2 ^ 64 then .ok (UInt64.ofNat (acc.toNat * 16 + d))
    else .error .posOverflow

/-- `u64::from_str_radix` in base 16. A plus sign may stand in front. -/
def u64FromHex : List Char → Except ParseIntError UInt64
  | [] => .error .empty
  | ['+'] => .error .invalidDigit
  | '+' :: digits => digits.foldlM pushHexDigit 0
  | digits => digits.foldlM pushHexDigit 0

/-- A number in a receipt; what is not readable counts as zero. -/
def hexU64 (text : String) : UInt64 := (u64FromHex (stripHexPrefix text)).toOption.getD 0

theorem foldlM_pushHexDigit {n : Nat} (h : n < 2 ^ 64) :
    (Nat.toDigits 16 n).foldlM pushHexDigit 0 = .ok (UInt64.ofNat n) := by
  have hpush {m : Nat} (hm : m < 2 ^ 64) : pushHexDigit (UInt64.ofNat (m / 16))
      (Nat.digitChar (m % 16)) = .ok (UInt64.ofNat m) := by
    have hhigh : (UInt64.ofNat (m / 16)).toNat = m / 16 :=
      UInt64.toNat_ofNat_of_lt' (show m / 16 < 2 ^ 64 by omega)
    unfold pushHexDigit
    rw [hexDigit_digitChar _ (Nat.mod_lt _ (by decide)), hhigh]
    dsimp only
    rw [Nat.div_add_mod', if_pos hm]
  -- the last digit is pushed on the number of those before it
  induction n using Nat.strongRecOn with
  | _ n ih =>
    rw [Nat.toDigits_eq_if (by decide)]
    split
    · next hlt =>
      have hlast := hpush h
      rw [Nat.div_eq_of_lt hlt, Nat.mod_eq_of_lt hlt] at hlast
      show (pushHexDigit (UInt64.ofNat 0) (Nat.digitChar n) >>= pure) = .ok _
      rw [hlast]
      rfl
    · rw [List.foldlM_append, ih (n / 16) (by omega) (by omega)]
      show (pushHexDigit (UInt64.ofNat (n / 16)) (Nat.digitChar (n % 16)) >>= pure) = .ok _
      rw [hpush h]
      rfl

theorem u64FromHex_of_foldlM {digits : List Char} {v : UInt64} (hne : digits ≠ [])
    (h : digits.foldlM pushHexDigit 0 = .ok v) : u64FromHex digits = .ok v := by
  unfold u64FromHex
  split
  · exact absurd rfl hne
  · cases h
  · cases h
  · exact h

/-- **Round trip.** A number comes back from its text. -/
@[simp] theorem hexU64_formatU64 (v : UInt64) : hexU64 (formatU64 v) = v := by
  have hdigits : stripHexPrefix (formatU64 v) = Nat.toDigits 16 v.toNat := by
    simp [stripHexPrefix, formatU64]
  unfold hexU64
  rw [hdigits, u64FromHex_of_foldlM Nat.toDigits_ne_nil (foldlM_pushHexDigit v.toNat_lt)]
  exact UInt64.ofNat_toNat

theorem formatBytes_injective [HexCrate] : Function.Injective formatBytes :=
  prefixed_hexEncode_injective

/-! ### Filters -/

/-- An error of the interface. -/
structure RpcError where
  code : Int
  message : String
  deriving DecidableEq, Repr

/-- Block of a query: a number in hex, or a name. -/
inductive BlockTag
  | number (text : String)
  | tag (text : String)

namespace BlockTag

def asStr : BlockTag → String
  | number s => s
  | tag s => s

/-- Parse a block identifier; the names for the newest blocks all are the current one. -/
def toBlockNumber (b : BlockTag) (currentBlock : UInt64) : Except RpcError UInt64 :=
  match b.asStr with
  | "latest" | "pending" | "safe" | "finalized" => .ok currentBlock
  | "earliest" => .ok 0
  | s => (u64FromHex (stripHexPrefix s)).mapError fun e =>
    ⟨-32602, "Invalid block number '" ++ b.asStr ++ "': " ++ e.message⟩

end BlockTag

/-- One address or several. -/
inductive AddressFilter
  | single (text : String)
  | multiple (texts : List String)

def AddressFilter.toVec : AddressFilter → List String
  | single s => [s]
  | multiple v => v

/-- Log filter for `eth_getLogs`. -/
structure LogFilter where
  fromBlock : Option BlockTag := none
  toBlock : Option BlockTag := none
  address : Option AddressFilter := none
  /-- By position; `none` takes any topic. -/
  topics : Option (List (Option String)) := none
  blockHash : Option String := none

/-- Log entry returned by `eth_getLogs`. -/
structure LogEntry where
  address : String
  topics : List String
  data : String
  blockNumber : String
  transactionHash : String
  transactionIndex : String
  blockHash : String
  logIndex : String
  removed : Bool
  deriving DecidableEq

/-- Transaction receipt. -/
structure TransactionReceipt where
  transactionHash : String
  transactionIndex : String
  blockHash : String
  blockNumber : String
  logs : List LogEntry

namespace LogFilter

variable (filter : LogFilter)

/-- The blocks that are asked for: without a block given, all of them. -/
def range (currentBlock : UInt64) : Except RpcError (UInt64 × UInt64) := do
  let fromBlock ← match filter.fromBlock with
    | some tag => tag.toBlockNumber currentBlock
    | none => .ok 0
  let toBlock ← match filter.toBlock with
    | some tag => tag.toBlockNumber currentBlock
    | none => .ok currentBlock
  return (fromBlock, toBlock)

/-- A block hash overrides the range. -/
def takesReceipt (range : UInt64 × UInt64) (receipt : TransactionReceipt) : Bool :=
  match filter.blockHash with
  | some bh => toLowercase receipt.blockHash = toLowercase bh
  | none =>
    let receiptBlock := hexU64 receipt.blockNumber
    ¬ (receiptBlock < range.1 ∨ receiptBlock > range.2)

/-- The filters on a log's address and, by position, on its topics. -/
def takes (address : String) (topics : List String) : Bool :=
  let byAddress := match filter.address.map fun a => a.toVec.map toLowercase with
    | some addrs => addrs.contains (toLowercase address)
    | none => true
  let byTopics := match filter.topics with
    | some expected => expected.zipIdx.all fun (exp, i) => match exp with
      | some exp => match topics[i]? with
        | some topic => toLowercase topic == toLowercase exp
        | none => false
      | none => true
    | none => true
  byAddress && byTopics

/-- The logs collected from a receipt. -/
def takenLogs (range : UInt64 × UInt64) (receipt : TransactionReceipt) : List LogEntry :=
  if filter.takesReceipt range receipt then
    receipt.logs.filter fun log => filter.takes log.address log.topics
  else []

end LogFilter

/-- The sort key. -/
def LogEntry.rank (log : LogEntry) : PairKey UInt64 UInt64 :=
  ⟨hexU64 log.blockNumber, hexU64 log.logIndex⟩

/-- `eth_getLogs`. -/
def getLogs (ord : HashOrder) (receipts : FinMap B256 TransactionReceipt) (currentBlock : UInt64)
    (filter : LogFilter) : Except RpcError (List LogEntry) := do
  let range ← filter.range currentBlock
  return ord.collect receipts (filter.takenLogs range) LogEntry.rank

/-! ### What is executed -/

/-- How the node executes transactions. -/
inductive ExecutionMode
  /-- In a block of the consensus, with others (`finalize_block`). -/
  | consensus
  /-- On its own, as a block of its own (`execute_locally`). -/
  | direct
  deriving DecidableEq

namespace ExecutionMode

/-- Every block has the same hash. -/
def blockHash : ExecutionMode → String
  | consensus => "0x" ++ String.ofList (List.replicate 64 'a')
  | direct => "0x" ++ String.ofList (List.replicate 64 '0')

/-- From a transaction's block to that of a later one. -/
def Follows : ExecutionMode → UInt64 → UInt64 → Prop
  | consensus, b, b' => b ≤ b'
  | direct, b, b' => b < b'

theorem Follows.le {mode : ExecutionMode} {b b' : UInt64} (h : mode.Follows b b') : b ≤ b' := by
  cases mode with
  | consensus => exact h
  | direct => exact UInt64.le_of_lt h

end ExecutionMode

/-- An executed transaction. -/
structure ExecutedTx where
  block : UInt64
  hash : B256
  logs : List EvmLog
  /-- A vector's length is a machine word. -/
  short : logs.length < 2 ^ 64

namespace ExecutedTx

variable (t : ExecutedTx) (mode : ExecutionMode)

/-- The entry of the log at a position. -/
def entry [HexCrate] (log : EvmLog) (i : Nat) : LogEntry where
  address := formatAddress log.address
  topics := log.topics.map formatBytes
  data := formatBytes log.data
  blockNumber := formatU64 t.block
  transactionHash := formatBytes t.hash
  transactionIndex := "0x0"
  blockHash := mode.blockHash
  logIndex := formatU64 (UInt64.ofNat i)
  removed := false

/-- The receipt that both modes write. -/
def receipt [HexCrate] : TransactionReceipt where
  transactionHash := formatBytes t.hash
  transactionIndex := "0x0"
  blockHash := mode.blockHash
  blockNumber := formatU64 t.block
  logs := t.logs.zipIdx.map fun p => t.entry mode p.1 p.2

end ExecutedTx

/-- What a node has executed, first to last. -/
structure History where
  mode : ExecutionMode
  txs : List ExecutedTx
  ordered : txs.Pairwise fun t u => mode.Follows t.block u.block

/-- The receipts after a history. -/
def History.receipts [HexCrate] (H : History) : FinMap B256 TransactionReceipt :=
  FinMap.writeAll (·.hash) (·.receipt H.mode) H.txs

/-! ### What matches -/

/-- Texts that differ in case only. -/
abbrev SameText (a b : String) : Prop := toLowercase a = toLowercase b

namespace LogFilter

variable (filter : LogFilter)

/-- A block is asked for. -/
def WantsBlock (range : UInt64 × UInt64) (mode : ExecutionMode) (block : UInt64) : Prop :=
  match filter.blockHash with
  | some bh => SameText mode.blockHash bh
  | none => range.1 ≤ block ∧ block ≤ range.2

/-- A log is asked for. -/
def WantsLog [HexCrate] (log : EvmLog) : Prop :=
  (∀ a, filter.address = some a → ∃ text ∈ a.toVec, SameText (formatAddress log.address) text) ∧
    ∀ topics, filter.topics = some topics →
      ∀ (i : Nat) (exp : String), topics[i]? = some (some exp) →
        ∃ topic, log.topics[i]? = some topic ∧ SameText (formatBytes topic) exp

variable {filter}

theorem takesReceipt_iff [HexCrate] {range : UInt64 × UInt64} {mode : ExecutionMode}
    {t : ExecutedTx} :
    filter.takesReceipt range (t.receipt mode) = true ↔
      filter.WantsBlock range mode t.block := by
  unfold takesReceipt WantsBlock ExecutedTx.receipt
  cases filter.blockHash with
  | some bh => simp
  | none => simp [not_or, UInt64.not_lt]

theorem takes_iff [HexCrate] {log : EvmLog} :
    filter.takes (formatAddress log.address) (log.topics.map formatBytes) = true ↔
      filter.WantsLog log := by
  unfold takes WantsLog
  rw [Bool.and_eq_true]
  refine and_congr ?_ ?_
  · cases filter.address with
    | none => simp
    | some a => simp [eq_comm]
  · cases filter.topics with
    | none => simp
    | some topics =>
      simp only [List.all_eq_true, Option.some.injEq, forall_eq', List.getElem?_map]
      constructor
      · intro h i exp hexp
        have htopic := h (some exp, i) (List.mem_zipIdx_iff_getElem?.mpr hexp)
        cases hlog : log.topics[i]? with
        | none => simp [hlog] at htopic
        | some topic =>
          simp only [hlog, Option.map_some, beq_iff_eq] at htopic
          exact ⟨topic, rfl, htopic⟩
      · rintro h ⟨exp, i⟩ hmem
        cases exp with
        | none => rfl
        | some exp =>
          obtain ⟨topic, hlog, hsame⟩ := h i exp (List.mem_zipIdx_iff_getElem?.mp hmem)
          simp [hlog, hsame]

instance (range : UInt64 × UInt64) (mode : ExecutionMode) (block : UInt64) :
    Decidable (filter.WantsBlock range mode block) :=
  match h : filter.blockHash with
  | some bh => decidable_of_iff (SameText mode.blockHash bh) (by simp [WantsBlock, h])
  | none => decidable_of_iff (range.1 ≤ block ∧ block ≤ range.2) (by simp [WantsBlock, h])

instance [HexCrate] (log : EvmLog) : Decidable (filter.WantsLog log) := decidable_of_iff _ takes_iff

end LogFilter

namespace History

section Search

variable [HexCrate] (H : History) (filter : LogFilter) (range : UInt64 × UInt64)

/-- The logs of a transaction that are asked for, with their positions. -/
def hits (t : ExecutedTx) : List (EvmLog × Nat) :=
  t.logs.zipIdx.filter fun p => filter.WantsBlock range H.mode t.block ∧ filter.WantsLog p.1

/-- All logs that are asked for, in the order of execution. -/
def wanted : List LogEntry :=
  H.txs.flatMap fun t => (H.hits filter range t).map fun p => t.entry H.mode p.1 p.2

variable {H filter range} {t u : ExecutedTx}

/-- What the search takes from a receipt. -/
theorem takenLogs_receipt : filter.takenLogs range (t.receipt H.mode) =
    (H.hits filter range t).map fun p => t.entry H.mode p.1 p.2 := by
  unfold hits LogFilter.takenLogs
  by_cases hblock : filter.WantsBlock range H.mode t.block
  · rw [if_pos (LogFilter.takesReceipt_iff.mpr hblock)]
    show (t.logs.zipIdx.map fun p => t.entry H.mode p.1 p.2).filter _ = _
    rw [List.filter_map]
    refine congrArg _ (List.filter_congr fun p _ => Bool.eq_iff_iff.mpr ?_)
    refine LogFilter.takes_iff.trans ?_
    rw [decide_eq_true_iff]
    exact ⟨fun h => ⟨hblock, h⟩, And.right⟩
  · rw [if_neg (mt LogFilter.takesReceipt_iff.mp hblock)]
    simp [hblock]

-- Positions fit in a machine word, so that their texts read back.
theorem pos_lt_of_hits {p : EvmLog × Nat} (h : p ∈ H.hits filter range t) : p.2 < 2 ^ 64 := by
  have hmem := List.mem_zipIdx_iff_getElem?.mp (List.mem_filter.mp h).1
  have hlt := (List.getElem?_eq_some_iff.mp hmem).1
  exact hlt.trans t.short

/-- Logs are ordered by block and then by position. -/
theorem compare_entry {p q : EvmLog × Nat} (hp : p ∈ H.hits filter range t)
    (hq : q ∈ H.hits filter range u) :
    compare (t.entry H.mode p.1 p.2).rank (u.entry H.mode q.1 q.2).rank = .lt ↔
      t.block < u.block ∨ t.block = u.block ∧ p.2 < q.2 := by
  have hp' : (UInt64.ofNat p.2).toNat = p.2 := UInt64.toNat_ofNat_of_lt' (pos_lt_of_hits hp)
  have hq' : (UInt64.ofNat q.2).toNat = q.2 := UInt64.toNat_ofNat_of_lt' (pos_lt_of_hits hq)
  have hpos : UInt64.ofNat p.2 < UInt64.ofNat q.2 ↔ p.2 < q.2 := by
    rw [UInt64.lt_iff_toNat_lt, hp', hq']
  simp [PairKey.compare_def, LogEntry.rank, ExecutedTx.entry, Ordering.then_eq_lt,
    Std.compare_eq_lt, hpos]

theorem pairwise_hits : (H.hits filter range t).Pairwise fun p q => p.2 < q.2 := by
  have hall : t.logs.zipIdx.Pairwise fun p q => p.2 < q.2 := by
    have hpositions : (t.logs.zipIdx.map Prod.snd).Pairwise (· < ·) := by
      rw [List.zipIdx_map_snd]
      exact List.pairwise_lt_range'
    exact List.pairwise_map.mp hpositions
  exact hall.filter _

/-- The logs of a transaction keep their order. -/
theorem pairwise_entries : ((H.hits filter range t).map fun p => t.entry H.mode p.1 p.2).Pairwise
    fun a b => compare a.rank b.rank = .lt := by
  refine List.pairwise_map.mpr (pairwise_hits.imp_of_mem fun {p q} hp hq hlt => ?_)
  exact (compare_entry hp hq).mpr (.inr ⟨rfl, hlt⟩)

/-- Every entry tells its transaction. -/
theorem disjoint_entries (h : t.hash ≠ u.hash) :
    ((H.hits filter range t).map fun p => t.entry H.mode p.1 p.2).Disjoint
      ((H.hits filter range u).map fun p => u.entry H.mode p.1 p.2) := by
  intro e ht hu
  obtain ⟨p, -, rfl⟩ := List.mem_map.mp ht
  obtain ⟨q, -, heq⟩ := List.mem_map.mp hu
  exact h (formatBytes_injective (congrArg LogEntry.transactionHash heq).symm)

/-- As blocks do not fall, only logs of one block can stand in the wrong order. -/
theorem rising_iff : (H.txs.Pairwise fun t u =>
      ∀ a ∈ (H.hits filter range t).map fun p => t.entry H.mode p.1 p.2,
      ∀ b ∈ (H.hits filter range u).map fun p => u.entry H.mode p.1 p.2,
        compare a.rank b.rank = .lt) ↔
    H.txs.Pairwise fun t u => t.block = u.block →
      ∀ p ∈ H.hits filter range t, ∀ q ∈ H.hits filter range u, p.2 < q.2 := by
  constructor
  · intro h
    refine h.imp fun {t u} hlt heq p hp q hq => ?_
    have hrank := hlt _ (List.mem_map_of_mem hp) _ (List.mem_map_of_mem hq)
    rcases (compare_entry hp hq).mp hrank with hblock | ⟨-, hpos⟩
    · exact absurd (heq ▸ hblock) (UInt64.lt_irrefl _)
    · exact hpos
  · intro h
    refine (H.ordered.and h).imp fun {t u} hboth a ha b hb => ?_
    obtain ⟨p, hp, rfl⟩ := List.mem_map.mp ha
    obtain ⟨q, hq, rfl⟩ := List.mem_map.mp hb
    refine (compare_entry hp hq).mpr ?_
    rcases UInt64.lt_or_eq_of_le hboth.1.le with hblock | heq
    · exact .inl hblock
    · exact .inr ⟨heq, hboth.2 heq p hp q hq⟩

/-- **Search in order.** In every iteration order of the receipts, the search answers with the
matching logs in the order of execution, exactly when no later transaction has the hash of one with
a matching log, and within a block the positions of the matching logs rise from each transaction
to the later ones. -/
theorem getLogs_in_order_iff (H : History) (filter : LogFilter) (currentBlock : UInt64) :
    (∀ ord : HashOrder, getLogs ord H.receipts currentBlock filter =
        (filter.range currentBlock).map (H.wanted filter)) ↔
      ∀ range, filter.range currentBlock = .ok range →
        H.txs.Pairwise (fun t u => t.hash = u.hash → H.hits filter range t = []) ∧
          H.txs.Pairwise fun t u => t.block = u.block →
            ∀ p ∈ H.hits filter range t, ∀ q ∈ H.hits filter range u, p.2 < q.2 := by
  cases hrange : filter.range currentBlock with
  | error e => simp [getLogs, hrange, Except.map]
  | ok range =>
    have hsearch (ord : HashOrder) : getLogs ord H.receipts currentBlock filter =
        .ok (ord.collect H.receipts (filter.takenLogs range) LogEntry.rank) := by
      unfold getLogs
      rw [hrange]
      rfl
    -- within a transaction the order is right, and entries of two hashes differ
    have hcollect := HashOrder.collect_eq_iff ExecutedTx.hash (·.receipt H.mode) H.txs
      (filter.takenLogs range) LogEntry.rank
      (fun t _ => by rw [takenLogs_receipt]; exact pairwise_entries)
      (fun t u hne => by rw [takenLogs_receipt, takenLogs_receipt]; exact disjoint_entries hne)
    simp only [takenLogs_receipt] at hcollect
    rw [rising_iff] at hcollect
    simp only [List.map_eq_nil_iff] at hcollect
    constructor
    · intro h range' hrange'
      cases hrange'
      refine hcollect.mp fun ord => ?_
      exact Except.ok.inj ((hsearch ord).symm.trans (h ord))
    · intro h ord
      rw [hsearch ord]
      exact congrArg Except.ok (hcollect.mpr (h range rfl) ord)

end Search

/-- Two transactions of one block, each with one log. -/
def twoLogs : History where
  mode := .consensus
  txs := [
    ⟨1, List.replicate 32 1, [⟨0x11, [], [1]⟩], by decide⟩,
    ⟨1, List.replicate 32 2, [⟨0x22, [], [2]⟩], by decide⟩]
  ordered := by simp [ExecutionMode.Follows]

/-- Both logs have index zero, and come in the order in which the receipts are visited. -/
theorem twoLogs_not_in_order : ¬ ∀ ord : HashOrder, getLogs ord twoLogs.receipts 1 {} =
    (LogFilter.range {} 1).map (twoLogs.wanted {}) := by
  intro h
  have hsame : getLogs .sorted twoLogs.receipts 1 {} =
      getLogs .reversed twoLogs.receipts 1 {} := (h .sorted).trans (h .reversed).symm
  exact absurd (congrArg Except.toOption hsame) (by decide +kernel)

end History

end Hypercore
