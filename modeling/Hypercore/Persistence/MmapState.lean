import Hypercore.Lib.Journal
import Hypercore.Lib.Run
import Hypercore.Primitives.Keccak
/-!
# Hypercore.Persistence.MmapState

File-backed state storage with a write-ahead log and snapshots.

A call writes to the disk byte by byte, and a crash may come after any of its writes: a call
is the list of its disk operations, and a crash keeps a first part of them. The log is read
and written in bytes; the layout of its records is a parameter. A snapshot is written under a name
that is not read and then renamed, so on the disk it is its map.

What is left out: the size and the time of a snapshot's metadata, and failing file operations.
-/

namespace Hypercore

open Exec

/-- The map that is stored. -/
abbrev StateMap := FinMap (List UInt8) (List UInt8)

/-- WAL operation types. -/
inductive WalOp
  | set (key value : List UInt8)
  | delete (key : List UInt8)
  | beginBlock (height : Nat)
  | commitBlock (height : Nat) (appHash : Bytes32)
  deriving DecidableEq

/-- Write-ahead log entry. Heights and timestamps are `u64`. -/
structure WalEntry where
  height : Nat
  op : WalOp
  timestamp : Nat
  deriving DecidableEq

/-! ### Records -/

namespace WalEntry

/-- The number that little-endian bytes stand for. -/
def ofLeBytes (bytes : List UInt8) : Nat := ofBeBytes bytes.reverse

/-- The heights of an operation are `u64`. -/
def OpFits : WalOp → Prop
  | .beginBlock height => height < 2 ^ 64
  | .commitBlock height _ => height < 2 ^ 64
  | _ => True

end WalEntry

/-- `bincode`. The store relies on one thing: an entry reads back from a record below 4 GiB. -/
class WalFormat where
  serialize : WalEntry → List UInt8
  deserialize : List UInt8 → Option WalEntry
  deserialize_serialize (e : WalEntry) (height : e.height < 2 ^ 64) (op : WalEntry.OpFits e.op)
    (timestamp : e.timestamp < 2 ^ 64) (record : (serialize e).length < 2 ^ 32) :
    deserialize (serialize e) = some e

def WalEntry.encode [WalFormat] (e : WalEntry) : List UInt8 := WalFormat.serialize e

def WalEntry.decode [WalFormat] (bytes : List UInt8) : Option WalEntry :=
  WalFormat.deserialize bytes

/-- Records behind their length as a `u32`. -/
def walFraming : Framing UInt8 where
  width := 4
  header n := leBytes 4 (n % 2 ^ 32)
  size := WalEntry.ofLeBytes
  bound := 2 ^ 32
  width_pos := by omega
  length_header n := length_leBytes 4 _
  size_header n h := by
    rw [Nat.mod_eq_of_lt h]
    exact ofBeBytes_beBytes (by omega)

/-! ### The disk -/

/-- What is on the disk: the snapshots by height, and the log. -/
structure MmapDisk where
  snaps : FinMap Nat StateMap
  wal : List UInt8

/-- What a call does to the disk, at once. -/
inductive DiskOp
  | append (byte : UInt8)
  /-- A snapshot gets its name. -/
  | rename (height : Nat) (content : StateMap)
  | removeFile (height : Nat)
  | truncateWal

def DiskOp.run (disk : MmapDisk) : DiskOp → MmapDisk
  | .append byte => { disk with wal := disk.wal ++ [byte] }
  | .rename height content => { disk with snaps := disk.snaps.insert height content }
  | .removeFile height => { disk with snaps := disk.snaps.erase height }
  | .truncateWal => { disk with wal := [] }

/-- Operations one after the other. -/
def MmapDisk.runAll (disk : MmapDisk) (ops : List DiskOp) : MmapDisk := ops.foldl DiskOp.run disk

/-- Configuration for file-backed state storage, with the log enabled. -/
structure MmapStateConfig where
  /-- In blocks. -/
  snapshotInterval : Nat := 100
  maxSnapshots : Nat := 5

/-- File-backed state storage. Of the snapshots it knows the heights. -/
structure MmapState where
  state : StateMap
  currentHeight : Nat
  /-- Modified since the last snapshot. -/
  dirty : Bool
  snapshots : List Nat

/-- A call, with its reading of the clock. -/
inductive MmapCall
  | beginBlock (height : UInt64) (now : UInt64)
  | set (key value : List UInt8) (now : UInt64)
  | delete (key : List UInt8) (now : UInt64)
  | commitBlock (appHash : Bytes32) (now : UInt64)

/-- What a replay of the log keeps track of. -/
structure WalReplay where
  state : StateMap
  currentHeight : Nat
  lastCommittedHeight : Nat

namespace MmapState

variable (cfg : MmapStateConfig) (m : MmapState)

/-- Write an entry to the log. -/
def writeWalEntry [WalFormat] (e : WalEntry) : List DiskOp :=
  (walFraming.frame e.encode).map .append

/-- The entry that a call logs. -/
def entry : MmapCall → WalEntry
  | .beginBlock height now => ⟨height.toNat, .beginBlock height.toNat, now.toNat⟩
  | .set key value now => ⟨m.currentHeight, .set key value, now.toNat⟩
  | .delete key now => ⟨m.currentHeight, .delete key, now.toNat⟩
  | .commitBlock appHash now => ⟨m.currentHeight, .commitBlock m.currentHeight appHash, now.toNat⟩

/-- Remove the oldest snapshots while there are too many. -/
def pruneSnapshots (maxSnapshots : Nat) : List Nat → List DiskOp × List Nat
  | [] => ([], [])
  | oldest :: rest =>
    if maxSnapshots < (oldest :: rest).length then
      let (ops, kept) := pruneSnapshots maxSnapshots rest
      (.removeFile oldest :: ops, kept)
    else ([], oldest :: rest)

/-- Take a snapshot of the current state, and truncate the log after it. -/
def takeSnapshot : List DiskOp × MmapState :=
  let (removals, kept) := pruneSnapshots cfg.maxSnapshots (m.snapshots ++ [m.currentHeight])
  (.rename m.currentHeight m.state :: (removals ++ [.truncateWal]),
    { m with dirty := false, snapshots := kept })

/-- A commit takes a snapshot. -/
def SnapshotDue : Prop :=
  m.dirty ∧ 0 < cfg.snapshotInterval ∧ m.currentHeight % cfg.snapshotInterval = 0

instance : Decidable (m.SnapshotDue cfg) := inferInstanceAs (Decidable (_ ∧ _ ∧ _))

/-- What a call does after it has logged its entry. -/
def afterEntry : MmapCall → List DiskOp × MmapState
  | .beginBlock height _ => ([], { m with currentHeight := height.toNat })
  | .set key value _ => ([], { m with state := m.state.insert key value, dirty := true })
  | .delete key _ => ([], { m with state := m.state.erase key, dirty := true })
  | .commitBlock _ _ => if m.SnapshotDue cfg then m.takeSnapshot cfg else ([], m)

/-- One call. -/
def run [WalFormat] (call : MmapCall) : List DiskOp × MmapState :=
  let (ops, m') := m.afterEntry cfg call
  (writeWalEntry (m.entry call) ++ ops, m')

/-- Replay an entry, unless it is from before the height that was reached. -/
def replayEntry (r : WalReplay) (e : WalEntry) : WalReplay :=
  if r.currentHeight ≤ e.height then
    match e.op with
    | .set key value => { r with state := r.state.insert key value }
    | .delete key => { r with state := r.state.erase key }
    | .beginBlock height => { r with currentHeight := height }
    | .commitBlock height _ => { r with lastCommittedHeight := height }
  else r

/-- The entries of a log, those that do not decode skipped. -/
def walEntries [WalFormat] (wal : List UInt8) : List WalEntry :=
  (walFraming.readFrames wal.length wal).filterMap WalEntry.decode

/-- Where a replay starts: at the latest snapshot. -/
def restored (disk : MmapDisk) : WalReplay :=
  match disk.snaps.toList.getLast? with
  | some (height, content) => ⟨content, height, height⟩
  | none => ⟨∅, 0, 0⟩

/-- Initialize: restore the latest snapshot and replay the log over it. A height that was begun
and not committed is rolled back. -/
def initialized [WalFormat] (disk : MmapDisk) : MmapState :=
  let r := (walEntries disk.wal).foldl replayEntry (restored disk)
  { state := r.state
    currentHeight :=
      if r.lastCommittedHeight < r.currentHeight then r.lastCommittedHeight else r.currentHeight
    dirty := false
    snapshots := disk.snaps.toList.map Prod.fst }

end MmapState

/-! ### What is committed -/

/-- The purpose of the store: the map and the height of the last committed block, and the
block that is begun with its writes. -/
structure CommittedState where
  map : StateMap
  height : Option Nat
  begun : Option (Nat × List (List UInt8 × Option (List UInt8)))

namespace CommittedState

/-- The writes of the block that is begun. -/
def edits (c : CommittedState) : List (List UInt8 × Option (List UInt8)) :=
  (c.begun.map Prod.snd).getD []

/-- A write joins the block that is begun. -/
def write (c : CommittedState) (e : List UInt8 × Option (List UInt8)) : CommittedState :=
  { c with begun := c.begun.map fun p => (p.1, p.2 ++ [e]) }

def run (c : CommittedState) : MmapCall → CommittedState
  | .beginBlock height _ => { c with begun := some (height.toNat, []) }
  | .set key value _ => c.write (key, some value)
  | .delete key _ => c.write (key, none)
  | .commitBlock _ _ =>
    match c.begun with
    | some (height, edits) => ⟨editAll c.map edits, some height, none⟩
    | none => c

/-- A crash drops the block that is begun. -/
def crash (c : CommittedState) : CommittedState := { c with begun := none }

/-- Dropping the block that is begun loses nothing: its writes leave the map as it is. -/
def Droppable (c : CommittedState) : Prop := editAll c.map c.edits = c.map

end CommittedState

/-! ### Runs -/

/-- A node with its disk, what is committed, and the greatest height whose begin is logged. -/
structure MmapNode where
  disk : MmapDisk
  mem : MmapState
  committed : CommittedState
  lastBegun : Nat

/-- A call, or a crash and the recovery from it. The crash comes between two calls, or after
the first so many disk operations of a call. -/
inductive MmapStep
  | call (call : MmapCall)
  | crash (during : Option (MmapCall × Nat))

namespace MmapNode

variable (cfg : MmapStateConfig)

/-- An empty directory. -/
def start [WalFormat] : MmapNode :=
  ⟨⟨∅, []⟩, MmapState.initialized ⟨∅, []⟩, ⟨∅, none, none⟩, 0⟩

/-- The height after a call. -/
def begunAfter (s : MmapNode) : MmapCall → Nat
  | .beginBlock height _ => height.toNat
  | _ => s.lastBegun

/-- The first `n` disk operations of a call. The call counts when its entry is whole. -/
def cut [WalFormat] (s : MmapNode) (call : MmapCall) (n : Nat) : MmapNode :=
  let disk := s.disk.runAll ((s.mem.run cfg call).1.take n)
  if (walFraming.frame (s.mem.entry call).encode).length ≤ n then
    ⟨disk, s.mem, s.committed.run call, s.begunAfter call⟩
  else { s with disk }

/-- Crash and recover. -/
def reboot [WalFormat] (s : MmapNode) : MmapNode :=
  { s with mem := MmapState.initialized s.disk, committed := s.committed.crash }

/-- What a crash finds on the disk. -/
def interrupted [WalFormat] (s : MmapNode) : Option (MmapCall × Nat) → MmapNode
  | none => s
  | some (call, n) => s.cut cfg call n

def step [WalFormat] : MmapStep → MmapNode → Exec MmapNode
  | .call call, s =>
    return ⟨s.disk.runAll (s.mem.run cfg call).1, (s.mem.run cfg call).2, s.committed.run call,
      s.begunAfter call⟩
  | .crash during, s => return (s.interrupted cfg during).reboot

/-- The calls of a sequence of blocks with increasing heights. A block that was begun and never
committed may be begun again. -/
def InOrder (s : MmapNode) : MmapCall → Prop
  | .beginBlock height _ =>
    s.lastBegun ≤ height.toNat ∧ ∀ h ∈ s.committed.height, h < height.toNat
  | _ => s.committed.begun.isSome

/-- The log is the records that are read from it, without a torn tail. -/
def Whole (wal : List UInt8) : Prop :=
  (walFraming.readFrames wal.length wal).flatMap walFraming.frame = wal

/-- A call keeps away from what recovery gets wrong: it does not write behind a torn record, its
record is shorter than 4 GiB, no block is begun after one whose writes are dropped, and a
snapshot is not taken to be removed at once. -/
def Safe [WalFormat] (s : MmapNode) (call : MmapCall) : Prop :=
  Whole s.disk.wal ∧ (s.mem.entry call).encode.length < 2 ^ 32 ∧
    match call with
    | .beginBlock _ _ => s.committed.Droppable
    | .commitBlock _ _ => s.mem.SnapshotDue cfg → 0 < cfg.maxSnapshots
    | _ => True

/-- A call in order that keeps away from what recovery gets wrong, or a crash during such a
call or between calls that drops nothing. -/
def Sound [WalFormat] (s : MmapNode) : MmapStep → Prop
  | .call call => s.InOrder call ∧ s.Safe cfg call
  | .crash during => (∀ p ∈ during, s.InOrder p.1 ∧ s.Safe cfg p.1) ∧
    (s.interrupted cfg during).committed.Droppable

/-- The map and the height in memory are those of the last committed block. -/
def Recovered (s : MmapNode) : Prop :=
  s.mem.state = s.committed.map ∧ s.mem.currentHeight = s.committed.height.getD 0

end MmapNode

/-! ### What a log replays to -/

namespace MmapState

open MmapNode

/-- An entry of a block's begin or commit is of the height that it names. -/
def Stamped (e : WalEntry) : Prop :=
  match e.op with
  | .beginBlock height => height = e.height
  | .commitBlock height _ => height = e.height
  | _ => True

/-- The edit of a logged write. -/
def editOf (e : WalEntry) : Option (List UInt8 × Option (List UInt8)) :=
  match e.op with
  | .set key value => some (key, some value)
  | .delete key => some (key, none)
  | _ => none

/-- The edits of entries at a height or later. -/
def editsFrom (height : Nat) (es : List WalEntry) : List (List UInt8 × Option (List UInt8)) :=
  (es.filter (height ≤ ·.height)).filterMap editOf

/-- Heights do not go down along a log. -/
def Ascending (es : List WalEntry) : Prop := es.Pairwise fun e e' => e.height ≤ e'.height

variable {e : WalEntry} {es : List WalEntry} {r : WalReplay} {disk : MmapDisk} {h : Nat}
  {content : StateMap}

theorem replayEntry_state (hle : r.currentHeight ≤ e.height) :
    (replayEntry r e).state = editAll r.state (editOf e).toList := by
  unfold replayEntry editOf
  rw [if_pos hle]
  cases e.op <;> rfl

/-- A replay applies the edits from the height where it starts. -/
theorem replay_state (hsorted : Ascending es) (hstamped : ∀ e ∈ es, Stamped e) :
    (es.foldl replayEntry r).state = editAll r.state (editsFrom r.currentHeight es) := by
  induction es generalizing r with
  | nil => rfl
  | cons e es ih =>
    obtain ⟨hfirst, hsorted⟩ := List.pairwise_cons.mp hsorted
    rw [List.foldl_cons, ih hsorted fun e' he' => hstamped e' (.tail _ he')]
    by_cases hle : r.currentHeight ≤ e.height
    · -- from here on every entry is at the reached height or later
      have hreached : (replayEntry r e).currentHeight ≤ e.height := by
        have hstamp := hstamped e (.head _)
        unfold replayEntry
        rw [if_pos hle]
        unfold Stamped at hstamp
        cases hop : e.op with
        | beginBlock height =>
          rw [hop] at hstamp
          exact hstamp.le
        | _ => exact hle
      have hrest : editsFrom (replayEntry r e).currentHeight es =
          editsFrom r.currentHeight es := by
        unfold editsFrom
        refine congrArg _ (List.filter_congr fun e' he' => ?_)
        have hlater := hfirst e' he'
        rw [decide_eq_decide]
        omega
      rw [replayEntry_state hle, hrest, ← editAll_append]
      unfold editsFrom
      rw [List.filter_cons_of_pos (by simpa using hle), List.filterMap_cons]
      cases editOf e <;> rfl
    · have hskip : replayEntry r e = r := if_neg hle
      rw [hskip]
      unfold editsFrom
      rw [List.filter_cons_of_neg (by simpa using hle)]

/-- A replay over a snapshot of the greatest height stays at that height. -/
theorem replay_snapshot (hstamped : ∀ e ∈ es, Stamped e) (hbelow : ∀ e ∈ es, e.height ≤ h) :
    es.foldl replayEntry ⟨content, h, h⟩ = ⟨editAll content (editsFrom h es), h, h⟩ := by
  induction es generalizing content with
  | nil => rfl
  | cons e es ih =>
    have hrest := fun content => @ih content
      (fun e' he' => hstamped e' (.tail _ he')) (fun e' he' => hbelow e' (.tail _ he'))
    rw [List.foldl_cons]
    by_cases hle : h ≤ e.height
    · have heq : e.height = h := le_antisymm (hbelow e (.head _)) hle
      have hstep : replayEntry ⟨content, h, h⟩ e = ⟨editAll content (editOf e).toList, h, h⟩ := by
        have hstamp := hstamped e (.head _)
        unfold replayEntry editOf
        rw [if_pos hle]
        unfold Stamped at hstamp
        cases hop : e.op with
        | set key value => rfl
        | delete key => rfl
        | beginBlock height =>
          rw [hop] at hstamp
          rw [hstamp, heq]
          rfl
        | commitBlock height appHash =>
          rw [hop] at hstamp
          rw [hstamp, heq]
          rfl
      rw [hstep, hrest, ← editAll_append]
      unfold editsFrom
      rw [List.filter_cons_of_pos (by simpa using hle), List.filterMap_cons]
      cases editOf e <;> rfl
    · have hskip : replayEntry ⟨content, h, h⟩ e = ⟨content, h, h⟩ := if_neg hle
      rw [hskip, hrest]
      unfold editsFrom
      rw [List.filter_cons_of_neg (by simpa using hle)]

/-- The edits from a later height are a last stretch of those from an earlier one. -/
theorem editsFrom_suffix (hsorted : Ascending es) {h₀ : Nat} (hle : h₀ ≤ h) :
    ∃ before, editsFrom h₀ es = before ++ editsFrom h es := by
  induction es with
  | nil => exact ⟨[], rfl⟩
  | cons e es ih =>
    obtain ⟨hfirst, hsorted⟩ := List.pairwise_cons.mp hsorted
    by_cases hlate : h ≤ e.height
    · refine ⟨[], ?_⟩
      unfold editsFrom
      rw [List.nil_append]
      refine congrArg _ (List.filter_congr fun e' he' => ?_)
      rw [decide_eq_decide]
      rcases List.mem_cons.mp he' with rfl | he'
      · omega
      · have hlater := hfirst e' he'
        omega
    · obtain ⟨before, hbefore⟩ := ih hsorted
      unfold editsFrom at hbefore ⊢
      rw [List.filter_cons_of_neg (p := fun e : WalEntry => decide (h ≤ e.height))
        (by simpa using hlate)]
      by_cases hearly : h₀ ≤ e.height
      · rw [List.filter_cons_of_pos (by simpa using hearly), List.filterMap_cons]
        cases editOf e with
        | none => exact ⟨before, hbefore⟩
        | some p => exact ⟨p :: before, congrArg _ hbefore⟩
      · rw [List.filter_cons_of_neg (by simpa using hearly)]
        exact ⟨before, hbefore⟩

/-! ### Files -/

theorem runAll_append (disk : MmapDisk) (bytes : List UInt8) :
    disk.runAll (bytes.map .append) = { disk with wal := disk.wal ++ bytes } := by
  unfold MmapDisk.runAll
  induction bytes generalizing disk with
  | nil => simp
  | cons b bytes ih =>
    rw [List.map_cons, List.foldl_cons, ih]
    simp [DiskOp.run]

/-- The latest snapshot is that of the greatest height. -/
theorem restored_eq (hget : disk.snaps[h]? = some content)
    (hmax : ∀ (k : Nat) (m : StateMap), disk.snaps[k]? = some m → k ≤ h) :
    restored disk = ⟨content, h, h⟩ := by
  have hmem : (h, content) ∈ disk.snaps.toList := FinMap.mem_toList.mpr hget
  have hlast : disk.snaps.toList.getLast? = some (h, content) := by
    cases hl : disk.snaps.toList.getLast? with
    | none =>
      rw [List.getLast?_eq_none_iff.mp hl] at hmem
      cases hmem
    | some p =>
      obtain ⟨before, hlist⟩ := List.getLast?_eq_some_iff.mp hl
      have hp : p ∈ disk.snaps.toList := List.mem_of_getLast? hl
      have hle := hmax p.1 p.2 (FinMap.mem_toList.mp hp)
      rw [hlist] at hmem
      rcases List.mem_append.mp hmem with hbefore | hlast
      · have hsorted := FinMap.pairwise_toList disk.snaps
        rw [hlist] at hsorted
        have hlt : compare h p.1 = .lt :=
          (List.pairwise_append.mp hsorted).2.2 _ hbefore p (.head _)
        have := Nat.compare_eq_lt.mp hlt
        omega
      · rw [List.mem_singleton.mp hlast]
  unfold restored
  rw [hlast]

theorem pruneSnapshots_eq (maxSnapshots : Nat) (heights : List Nat) :
    pruneSnapshots maxSnapshots heights =
      ((heights.take (heights.length - maxSnapshots)).map .removeFile,
        heights.drop (heights.length - maxSnapshots)) := by
  induction heights with
  | nil => simp [pruneSnapshots]
  | cons oldest rest ih =>
    unfold pruneSnapshots
    rw [ih]
    by_cases hmany : maxSnapshots < (oldest :: rest).length
    · have hlen : (oldest :: rest).length - maxSnapshots = rest.length - maxSnapshots + 1 := by
        rw [List.length_cons] at hmany ⊢
        omega
      rw [if_pos hmany, hlen]
      rfl
    · have hlen : (oldest :: rest).length - maxSnapshots = 0 := by omega
      rw [if_neg hmany, hlen]
      rfl

theorem runAll_removeFile (disk : MmapDisk) (heights : List Nat) :
    disk.runAll (heights.map .removeFile) =
      { disk with snaps := heights.foldl (fun m k => m.erase k) disk.snaps } := by
  unfold MmapDisk.runAll
  induction heights generalizing disk with
  | nil => rfl
  | cons k heights ih =>
    rw [List.map_cons, List.foldl_cons, ih]
    rfl

theorem restored_height_le (hmax : ∀ (k : Nat) (m : StateMap), disk.snaps[k]? = some m → k ≤ h) :
    (restored disk).currentHeight ≤ h := by
  unfold restored
  cases hl : disk.snaps.toList.getLast? with
  | none => exact Nat.zero_le _
  | some p => exact hmax p.1 p.2 (FinMap.mem_toList.mp (List.mem_of_getLast? hl))

/-! ### The log of a disk -/

variable [WalFormat]

/-- The numbers of an entry are `u64`, and its record is shorter than 4 GiB. -/
structure EntryFits (e : WalEntry) : Prop where
  height : e.height < 2 ^ 64
  op : WalEntry.OpFits e.op
  timestamp : e.timestamp < 2 ^ 64
  record : e.encode.length < 2 ^ 32

theorem EntryFits.decode (h : EntryFits e) : WalEntry.decode e.encode = some e :=
  WalFormat.deserialize_serialize e h.height h.op h.timestamp h.record

/-- The log of a disk is these entries with a torn tail, and replays to `r`. -/
structure LogOf (disk : MmapDisk) (es : List WalEntry) (r : WalReplay) : Prop where
  wal : ∃ tail, walFraming.Torn tail ∧
    disk.wal = (es.map WalEntry.encode).flatMap walFraming.frame ++ tail
  fits : ∀ e ∈ es, EntryFits e
  stamped : ∀ e ∈ es, Stamped e
  sorted : Ascending es
  below : ∀ e ∈ es, e.height ≤ r.currentHeight
  replay : es.foldl replayEntry (restored disk) = r

/-- A log without entries replays to the latest snapshot. -/
theorem LogOf.empty (hwal : disk.wal = []) (hrestored : restored disk = r) : LogOf disk [] r where
  wal := ⟨[], Framing.torn_nil, hwal⟩
  fits _ he := absurd he List.not_mem_nil
  stamped _ he := absurd he List.not_mem_nil
  sorted := .nil
  below _ he := absurd he List.not_mem_nil
  replay := hrestored

/-- Only the log and the latest snapshot matter. -/
theorem LogOf.congr {disk' : MmapDisk} (hlog : LogOf disk es r) (hwal : disk'.wal = disk.wal)
    (hrestored : restored disk' = restored disk) : LogOf disk' es r := by
  refine ⟨?_, hlog.fits, hlog.stamped, hlog.sorted, hlog.below, ?_⟩
  · rw [hwal]
    exact hlog.wal
  · rw [hrestored]
    exact hlog.replay

theorem walEntries_eq {tail : List UInt8} (hfits : ∀ e ∈ es, EntryFits e)
    (htorn : walFraming.Torn tail) :
    walEntries ((es.map WalEntry.encode).flatMap walFraming.frame ++ tail) = es := by
  have hlen : (es.map WalEntry.encode).length ≤ _ := walFraming.length_le_flatMap
  unfold walEntries
  rw [Framing.readFrames_eq (fun d hd => ?_) htorn]
  · rw [List.filterMap_map]
    have hdecode : ∀ e ∈ es, (WalEntry.decode ∘ WalEntry.encode) e = some e := fun e he =>
      (hfits e he).decode
    clear hlen
    induction es with
    | nil => rfl
    | cons e es ih =>
      rw [List.filterMap_cons, hdecode e (.head _)]
      exact congrArg _ (ih (fun e' he' => hfits e' (.tail _ he'))
        fun e' he' => hdecode e' (.tail _ he'))
  · rw [List.length_append]
    omega
  · obtain ⟨e, he, rfl⟩ := List.mem_map.mp hd
    exact (hfits e he).record

/-- What initialization finds. -/
theorem LogOf.initialized (hlog : LogOf disk es r)
    (hle : r.lastCommittedHeight ≤ r.currentHeight) :
    (initialized disk).state = r.state ∧
      (initialized disk).currentHeight = r.lastCommittedHeight := by
  obtain ⟨tail, htorn, hwal⟩ := hlog.wal
  have hentries : walEntries disk.wal = es := by
    rw [hwal]
    exact walEntries_eq hlog.fits htorn
  unfold MmapState.initialized
  rw [hentries, hlog.replay]
  refine ⟨rfl, ?_⟩
  dsimp only
  split
  · rfl
  · omega

/-- A log that is the records read from it has no torn tail. -/
theorem LogOf.of_whole (hlog : LogOf disk es r) (hwhole : Whole disk.wal) :
    disk.wal = (es.map WalEntry.encode).flatMap walFraming.frame := by
  obtain ⟨tail, htorn, hwal⟩ := hlog.wal
  have hlen : (es.map WalEntry.encode).length ≤ _ := walFraming.length_le_flatMap
  unfold Whole at hwhole
  rw [← hwhole, hwal, Framing.readFrames_eq (fun d hd => ?_) htorn]
  · rw [List.length_append]
    omega
  · obtain ⟨e, he, rfl⟩ := List.mem_map.mp hd
    exact (hlog.fits e he).record

/-- A first part of a record is a torn tail. -/
theorem LogOf.torn (hlog : LogOf disk es r) (hwhole : Whole disk.wal)
    (hrecord : e.encode.length < 2 ^ 32) {n : Nat}
    (hn : n < (walFraming.frame e.encode).length) :
    LogOf (disk.runAll ((writeWalEntry e).take n)) es r := by
  unfold writeWalEntry
  rw [← List.map_take, runAll_append]
  refine ⟨⟨_, Framing.torn_take hrecord hn, ?_⟩, hlog.fits, hlog.stamped, hlog.sorted, hlog.below,
    hlog.replay⟩
  dsimp only
  rw [hlog.of_whole hwhole]

/-- A whole record is replayed after the others. -/
theorem LogOf.append (hlog : LogOf disk es r) (hwhole : Whole disk.wal) (hfits : EntryFits e)
    (hstamped : Stamped e) (hnext : r.currentHeight ≤ e.height)
    (hreached : e.height ≤ (replayEntry r e).currentHeight) :
    LogOf (disk.runAll (writeWalEntry e)) (es ++ [e]) (replayEntry r e) := by
  unfold writeWalEntry
  rw [runAll_append]
  have heach : ∀ {P : WalEntry → Prop}, (∀ e ∈ es, P e) → P e → ∀ e' ∈ es ++ [e], P e' := by
    intro P hes he e' he'
    rcases List.mem_append.mp he' with he' | he'
    · exact hes e' he'
    · rw [List.mem_singleton.mp he']
      exact he
  refine ⟨⟨[], Framing.torn_nil, ?_⟩, heach hlog.fits hfits, heach hlog.stamped hstamped, ?_,
    heach (fun e' he' => (hlog.below e' he').trans (hnext.trans hreached)) hreached, ?_⟩
  · dsimp only
    rw [hlog.of_whole hwhole, List.map_append, List.flatMap_append, List.append_nil]
    simp
  · refine List.pairwise_append.mpr ⟨hlog.sorted, List.pairwise_singleton _ _, ?_⟩
    intro e₁ h₁ e₂ h₂
    rw [List.mem_singleton.mp h₂]
    exact (hlog.below e₁ h₁).trans hnext
  · rw [List.foldl_append, List.foldl_cons, List.foldl_nil]
    exact congrArg (replayEntry · e) hlog.replay

/-! ### Snapshots -/

/-- A snapshot of what a log replays to at its greatest height, later than all others: the log
replays to the same over it. -/
theorem LogOf.rename (hlog : LogOf disk es ⟨content, h, h⟩)
    (hmax : ∀ (k : Nat) (m : StateMap), disk.snaps[k]? = some m → k ≤ h)
    (hstart : (restored disk).currentHeight ≤ h) :
    LogOf (DiskOp.run disk (.rename h content)) es ⟨content, h, h⟩ ∧
      restored (DiskOp.run disk (.rename h content)) = ⟨content, h, h⟩ := by
  have hrestored : restored (DiskOp.run disk (.rename h content)) = ⟨content, h, h⟩ := by
    refine restored_eq (FinMap.get_insert_self _ _ _) fun k m hk => ?_
    change (disk.snaps.insert h content)[k]? = some m at hk
    rw [FinMap.get_insert] at hk
    split at hk
    · omega
    · exact hmax k m hk
  refine ⟨⟨hlog.wal, hlog.fits, hlog.stamped, hlog.sorted, hlog.below, ?_⟩, hrestored⟩
  rw [hrestored, replay_snapshot hlog.stamped hlog.below]
  have hstate := replay_state (r := restored disk) hlog.sorted hlog.stamped
  rw [hlog.replay] at hstate
  obtain ⟨before, hbefore⟩ := editsFrom_suffix hlog.sorted hstart
  have hagain : editAll content (editsFrom h es) = content := by
    change content = _ at hstate
    rw [hbefore] at hstate
    rw [hstate]
    exact editAll_again _ before (editsFrom h es)
  rw [hagain]

/-- **Snapshot.** Wherever the work of a snapshot is cut, the disk replays to what it did before,
as long as the new snapshot is not among those that are removed. -/
theorem LogOf.takeSnapshot (hlog : LogOf disk es ⟨content, h, h⟩)
    (hmax : ∀ (k : Nat) (m : StateMap), disk.snaps[k]? = some m → k ≤ h) {removed : List Nat}
    (hkept : h ∉ removed) (n : Nat) :
    ∃ es', LogOf (disk.runAll ((DiskOp.rename h content ::
      (removed.map DiskOp.removeFile ++ [DiskOp.truncateWal])).take n)) es' ⟨content, h, h⟩ := by
  cases n with
  | zero => exact ⟨es, hlog⟩
  | succ n =>
    obtain ⟨hrenamed, hrestored⟩ := hlog.rename hmax (restored_height_le hmax)
    -- removals leave the latest snapshot
    have hremoved : ∀ ks : List Nat, h ∉ ks →
        restored ((DiskOp.run disk (.rename h content)).runAll (ks.map .removeFile)) =
          ⟨content, h, h⟩ := by
      intro ks hks
      rw [runAll_removeFile]
      have hget : ∀ k, (ks.foldl (fun m k => m.erase k) (disk.snaps.insert h content))[k]? =
          if k ∈ ks then none else (disk.snaps.insert h content)[k]? := by
        intro k
        have hfold := FinMap.get_foldl_erase (disk.snaps.insert h content) k id ks
        rw [List.map_id] at hfold
        exact hfold
      refine @restored_eq _ _ content ?_ fun k m hk => ?_
      · exact (hget h).trans ((if_neg hks).trans (FinMap.get_insert_self _ _ _))
      · have hk' := (hget k).symm.trans hk
        split at hk'
        · cases hk'
        · rw [FinMap.get_insert] at hk'
          split at hk'
          · omega
          · exact hmax k m hk'
    have hwal : ∀ ks : List Nat, ((DiskOp.run disk (.rename h content)).runAll
        (ks.map .removeFile)).wal = disk.wal := fun ks => by
      rw [runAll_removeFile]
      rfl
    rw [List.take_succ_cons]
    show ∃ es', LogOf ((DiskOp.run disk (.rename h content)).runAll
      ((removed.map DiskOp.removeFile ++ [DiskOp.truncateWal]).take n)) es' _
    by_cases hn : n ≤ removed.length
    · rw [List.take_append_of_le_length (by simpa using hn), ← List.map_take]
      refine ⟨es, hrenamed.congr (hwal _) ?_⟩
      rw [hrestored, hremoved _ fun hmem => hkept (List.mem_of_mem_take hmem)]
    · have hlen : (removed.map DiskOp.removeFile ++ [DiskOp.truncateWal]).length ≤ n := by
        simp only [List.length_append, List.length_map, List.length_singleton]
        omega
      rw [List.take_of_length_le hlen]
      unfold MmapDisk.runAll
      rw [List.foldl_append]
      refine ⟨[], .empty rfl ?_⟩
      exact hremoved removed hkept

end MmapState

/-! ### Recovery -/

namespace MmapNode

open MmapState

variable {cfg : MmapStateConfig} {s s' : MmapNode} {call : MmapCall} {disk : MmapDisk}
  {c : CommittedState} {lastBegun : Nat}

theorem runAll_nil (disk : MmapDisk) : disk.runAll [] = disk := rfl

/-- After its entry a call writes nothing, or a commit its snapshot. -/
theorem afterEntry_ops (cfg : MmapStateConfig) (m : MmapState) (call : MmapCall) :
    (m.afterEntry cfg call).1 = [] ∨ ∃ appHash now, call = .commitBlock appHash now ∧
      m.SnapshotDue cfg ∧ m.afterEntry cfg call = m.takeSnapshot cfg := by
  cases call with
  | commitBlock appHash now =>
    by_cases hdue : m.SnapshotDue cfg
    · exact .inr ⟨appHash, now, rfl, hdue, if_pos hdue⟩
    · refine .inl ?_
      unfold afterEntry
      rw [if_neg hdue]
  | _ => exact .inl rfl

variable [WalFormat]

/-- A disk replays to what is committed and the writes of the block that is begun. -/
structure Durable (disk : MmapDisk) (c : CommittedState) (lastBegun : Nat) : Prop where
  log : ∃ es, LogOf disk es ⟨editAll c.map c.edits, lastBegun, c.height.getD 0⟩
  reached : c.height.getD 0 ≤ lastBegun
  bounded : lastBegun < 2 ^ 64
  below : ∀ (k : Nat) (m : StateMap), disk.snaps[k]? = some m → ∃ h ∈ c.height, k ≤ h

/-- What the run lemma carries. -/
structure Consistent (s : MmapNode) : Prop where
  durable : Durable s.disk s.committed s.lastBegun
  state : s.mem.state = editAll s.committed.map s.committed.edits
  begun : ∀ p ∈ s.committed.begun, p.1 = s.lastBegun ∧ s.mem.currentHeight = s.lastBegun ∧
    ∀ h ∈ s.committed.height, h < s.lastBegun
  sorted : s.mem.snapshots.Pairwise (· < ·)
  listed : ∀ k : Nat, k ∈ s.mem.snapshots ↔ (s.disk.snaps[k]?).isSome

/-- Recovery from a durable disk has the writes of the block that was begun on top of what is
committed, and the height of the last commit. -/
theorem Durable.initialized (hd : Durable disk c lastBegun) :
    (initialized disk).state = editAll c.map c.edits ∧
      (initialized disk).currentHeight = c.height.getD 0 := by
  obtain ⟨es, hlog⟩ := hd.log
  exact hlog.initialized hd.reached

/-- A node that recovers where nothing is dropped is consistent. -/
theorem Durable.reboot (hd : Durable s.disk s.committed s.lastBegun)
    (hdrop : s.committed.Droppable) : Consistent s.reboot where
  durable := by
    refine ⟨?_, hd.reached, hd.bounded, hd.below⟩
    obtain ⟨es, hlog⟩ := hd.log
    rw [hdrop] at hlog
    exact ⟨es, hlog⟩
  state := by
    refine hd.initialized.1.trans ?_
    rw [hdrop]
    rfl
  begun _ hp := nomatch hp
  sorted := by
    refine List.pairwise_map.mpr ((FinMap.pairwise_toList s.disk.snaps).imp fun {a b} hlt => ?_)
    exact Nat.compare_eq_lt.mp hlt
  listed k := by
    refine List.mem_map.trans ?_
    rw [Option.isSome_iff_exists]
    constructor
    · rintro ⟨p, hp, rfl⟩
      exact ⟨p.2, FinMap.mem_toList.mp hp⟩
    · rintro ⟨m, hm⟩
      exact ⟨(k, m), FinMap.mem_toList.mpr hm, rfl⟩

/-- **Recovery.** A durable disk recovers what is committed exactly when nothing is dropped. -/
theorem Durable.recovered_iff (hd : Durable s.disk s.committed s.lastBegun) :
    Recovered s.reboot ↔ s.committed.Droppable := by
  obtain ⟨hstate, hheight⟩ := hd.initialized
  unfold Recovered CommittedState.Droppable
  constructor
  · rintro ⟨hmap, -⟩
    exact hstate.symm.trans hmap
  · intro hdrop
    exact ⟨hstate.trans hdrop, hheight⟩

/-! #### What a call logs -/

theorem entry_height (hs : Consistent s) (hord : s.InOrder call) :
    (s.mem.entry call).height = s.begunAfter call := by
  cases call with
  | beginBlock height now => rfl
  | _ =>
    obtain ⟨p, hp⟩ := Option.isSome_iff_exists.mp hord
    exact (hs.begun p hp).2.1

/-- The entry of a call in order fits if its record does. -/
theorem entry_fits (hs : Consistent s) (hord : s.InOrder call)
    (hrecord : (s.mem.entry call).encode.length < 2 ^ 32) : EntryFits (s.mem.entry call) := by
  have hheight : (s.mem.entry call).height < 2 ^ 64 := by
    rw [entry_height hs hord]
    cases call with
    | beginBlock height now => exact height.toNat_lt
    | _ => exact hs.durable.bounded
  refine ⟨hheight, ?_, ?_, hrecord⟩
  · cases call with
    | beginBlock height now => exact height.toNat_lt
    | commitBlock appHash now => exact hheight
    | _ => exact trivial
  · cases call with
    | beginBlock height now => exact now.toNat_lt
    | set key value now => exact now.toNat_lt
    | delete key now => exact now.toNat_lt
    | commitBlock appHash now => exact now.toNat_lt

/-- Replaying the entry of a call does what the call does. -/
theorem replay_entry (hs : Consistent s) (hord : s.InOrder call) (hsafe : s.Safe cfg call) :
    replayEntry ⟨editAll s.committed.map s.committed.edits, s.lastBegun,
        s.committed.height.getD 0⟩ (s.mem.entry call) =
      ⟨editAll (s.committed.run call).map (s.committed.run call).edits, s.begunAfter call,
        (s.committed.run call).height.getD 0⟩ := by
  have hheight := entry_height hs hord
  have hle : s.lastBegun ≤ (s.mem.entry call).height := by
    rw [hheight]
    cases call with
    | beginBlock height now => exact hord.1
    | _ => exact le_rfl
  unfold replayEntry
  rw [if_pos hle]
  cases call with
  | beginBlock height now =>
    have hdrop : editAll s.committed.map s.committed.edits = s.committed.map := hsafe.2.2
    rw [hdrop]
    rfl
  | set key value now =>
    obtain ⟨p, hp⟩ := Option.isSome_iff_exists.mp hord
    simp only [entry, CommittedState.run, CommittedState.write, CommittedState.edits, hp,
      Option.map_some, Option.getD_some, editAll_append, begunAfter]
    rfl
  | delete key now =>
    obtain ⟨p, hp⟩ := Option.isSome_iff_exists.mp hord
    simp only [entry, CommittedState.run, CommittedState.write, CommittedState.edits, hp,
      Option.map_some, Option.getD_some, editAll_append, begunAfter]
    rfl
  | commitBlock appHash now =>
    obtain ⟨p, hp⟩ := Option.isSome_iff_exists.mp hord
    obtain ⟨hp1, hcurrent, -⟩ := hs.begun p hp
    simp only [entry, CommittedState.run, CommittedState.edits, hp, Option.map_some,
      Option.getD_some, Option.map_none, Option.getD_none, begunAfter, hp1, hcurrent]
    rfl

/-- A whole entry makes the call durable. -/
theorem Consistent.logged (hs : Consistent s) (hord : s.InOrder call) (hsafe : s.Safe cfg call) :
    Durable (s.disk.runAll (writeWalEntry (s.mem.entry call))) (s.committed.run call)
      (s.begunAfter call) := by
  obtain ⟨es, hlog⟩ := hs.durable.log
  have hheight := entry_height hs hord
  have hreplay := replay_entry hs hord hsafe
  have hnext : s.lastBegun ≤ s.begunAfter call := by
    cases call with
    | beginBlock height now => exact hord.1
    | _ => exact le_rfl
  have hstamped : Stamped (s.mem.entry call) := by
    cases call <;> first | exact rfl | exact trivial
  have happended := hlog.append hsafe.1 (entry_fits hs hord hsafe.2.1) hstamped
    (by rw [hheight]; exact hnext) (by rw [hreplay, hheight])
  rw [hreplay] at happended
  have hsnaps : (s.disk.runAll (writeWalEntry (s.mem.entry call))).snaps = s.disk.snaps := by
    unfold writeWalEntry
    rw [runAll_append]
  refine ⟨⟨_, happended⟩, ?_, ?_, ?_⟩
  · have hreached := hs.durable.reached
    cases call with
    | commitBlock appHash now =>
      obtain ⟨p, hp⟩ := Option.isSome_iff_exists.mp hord
      simp only [CommittedState.run, hp, Option.getD_some, begunAfter]
      exact (hs.begun p hp).1.le
    | beginBlock height now => exact hreached.trans hnext
    | _ => exact hreached
  · cases call with
    | beginBlock height now => exact height.toNat_lt
    | _ => exact hs.durable.bounded
  · intro k m hk
    rw [hsnaps] at hk
    obtain ⟨h, hh, hkh⟩ := hs.durable.below k m hk
    cases call with
    | commitBlock appHash now =>
      obtain ⟨p, hp⟩ := Option.isSome_iff_exists.mp hord
      obtain ⟨hp1, -, hlater⟩ := hs.begun p hp
      refine ⟨p.1, by simp only [CommittedState.run, hp]; rfl, ?_⟩
      have hlt := hlater h hh
      omega
    | _ => exact ⟨h, hh, hkh⟩

/-! #### Where a call is cut -/

/-- The snapshot of a commit that was logged. -/
theorem Consistent.snapshot {appHash : Bytes32} {now : UInt64} (hs : Consistent s)
    (hord : s.InOrder (.commitBlock appHash now)) (hmax : 0 < cfg.maxSnapshots)
    (hd : Durable disk (s.committed.run (.commitBlock appHash now)) s.lastBegun)
    (hsnaps : disk.snaps = s.disk.snaps) (n : Nat) :
    Durable (disk.runAll ((s.mem.takeSnapshot cfg).1.take n))
      (s.committed.run (.commitBlock appHash now)) s.lastBegun := by
  obtain ⟨p, hp⟩ := Option.isSome_iff_exists.mp hord
  obtain ⟨hp1, hcurrent, hlater⟩ := hs.begun p hp
  have hrun :
      s.committed.run (.commitBlock appHash now) = ⟨s.mem.state, some s.lastBegun, none⟩ := by
    rw [hs.state, ← hp1]
    simp only [CommittedState.run, CommittedState.edits, hp]
    rfl
  have hearlier : ∀ (k : Nat), (disk.snaps[k]?).isSome → k < s.lastBegun := by
    intro k hk
    rw [hsnaps] at hk
    obtain ⟨m, hm⟩ := Option.isSome_iff_exists.mp hk
    obtain ⟨h, hh, hkh⟩ := hs.durable.below k m hm
    exact Nat.lt_of_le_of_lt hkh (hlater h hh)
  -- the new snapshot is the last one, and at least one is kept
  have hkept : s.lastBegun ∉ (s.mem.snapshots ++ [s.lastBegun]).take
      ((s.mem.snapshots ++ [s.lastBegun]).length - cfg.maxSnapshots) := by
    intro hmem
    have hshort : (s.mem.snapshots ++ [s.lastBegun]).length - cfg.maxSnapshots ≤
        s.mem.snapshots.length := by
      rw [List.length_append, List.length_singleton]
      omega
    rw [List.take_append_of_le_length hshort] at hmem
    have hlisted := (hs.listed s.lastBegun).mp (List.mem_of_mem_take hmem)
    rw [← hsnaps] at hlisted
    exact lt_irrefl _ (hearlier _ hlisted)
  obtain ⟨es, hlog⟩ := hd.log
  rw [hrun] at hlog hd ⊢
  change LogOf disk es ⟨s.mem.state, s.lastBegun, s.lastBegun⟩ at hlog
  have hops : (s.mem.takeSnapshot cfg).1 = DiskOp.rename s.lastBegun s.mem.state ::
      (((s.mem.snapshots ++ [s.lastBegun]).take
        ((s.mem.snapshots ++ [s.lastBegun]).length - cfg.maxSnapshots)).map DiskOp.removeFile ++
          [DiskOp.truncateWal]) := by
    unfold takeSnapshot
    rw [pruneSnapshots_eq, hcurrent]
  have hcut := hlog.takeSnapshot (fun k m hk => (hearlier k (by rw [hk]; rfl)).le) hkept n
  rw [← hops] at hcut
  refine ⟨hcut, le_rfl, hd.bounded, ?_⟩
  -- every snapshot on the disk is an earlier one or the new one
  have hrange : ∀ (ops : List DiskOp) (d : MmapDisk), (∀ op ∈ ops, ∀ k m, op = .rename k m →
      k ≤ s.lastBegun) → (∀ (k : Nat) (m : StateMap), d.snaps[k]? = some m → k ≤ s.lastBegun) →
      ∀ (k : Nat) (m : StateMap), (d.runAll ops).snaps[k]? = some m → k ≤ s.lastBegun := by
    intro ops
    induction ops with
    | nil => exact fun d _ hd => hd
    | cons op ops ih =>
      intro d hops hd
      refine ih (op.run d) (fun o ho => hops o (.tail _ ho)) fun k m hk => ?_
      cases op with
      | append byte => exact hd k m hk
      | truncateWal => exact hd k m hk
      | rename height content =>
        change (d.snaps.insert height content)[k]? = some m at hk
        rw [FinMap.get_insert] at hk
        split at hk
        · rename_i heq
          rw [← heq]
          exact hops _ (.head _) height content rfl
        · exact hd k m hk
      | removeFile height =>
        change (d.snaps.erase height)[k]? = some m at hk
        rw [FinMap.get_erase] at hk
        split at hk
        · cases hk
        · exact hd k m hk
  intro k m hk
  refine ⟨s.lastBegun, rfl, hrange _ disk (fun op hop k m heq => ?_) (fun k m hk =>
    (hearlier k (by rw [hk]; rfl)).le) k m hk⟩
  have hmem := List.mem_of_mem_take hop
  rw [hops, heq] at hmem
  rcases List.mem_cons.mp hmem with heq | hmem
  · injection heq with hheight
    exact hheight.le
  · rcases List.mem_append.mp hmem with hmem | hmem
    · obtain ⟨_, -, heq⟩ := List.mem_map.mp hmem
      cases heq
    · cases List.mem_singleton.mp hmem

theorem cut_whole {n : Nat}
    (h : (walFraming.frame (s.mem.entry call).encode).length ≤ n) :
    s.cut cfg call n = ⟨s.disk.runAll ((s.mem.run cfg call).1.take n), s.mem,
      s.committed.run call, s.begunAfter call⟩ := if_pos h

theorem cut_torn {n : Nat} (h : ¬ (walFraming.frame (s.mem.entry call).encode).length ≤ n) :
    s.cut cfg call n = { s with disk := s.disk.runAll ((s.mem.run cfg call).1.take n) } := if_neg h

/-- **Cut lemma.** Wherever a call is cut, the disk is durable. -/
theorem Consistent.cut (hs : Consistent s) (hord : s.InOrder call) (hsafe : s.Safe cfg call)
    (n : Nat) :
    Durable (s.cut cfg call n).disk (s.cut cfg call n).committed (s.cut cfg call n).lastBegun := by
  have hlength : (writeWalEntry (s.mem.entry call)).length =
      (walFraming.frame (s.mem.entry call).encode).length := List.length_map _
  have hops : (s.mem.run cfg call).1 =
      writeWalEntry (s.mem.entry call) ++ (s.mem.afterEntry cfg call).1 := rfl
  by_cases hwhole : (walFraming.frame (s.mem.entry call).encode).length ≤ n
  · rw [cut_whole hwhole, hops, List.take_append, hlength,
      List.take_of_length_le (hlength.trans_le hwhole)]
    have hlogged := hs.logged hord hsafe
    have hrest : ∀ ops, s.disk.runAll (writeWalEntry (s.mem.entry call) ++ ops) =
        (s.disk.runAll (writeWalEntry (s.mem.entry call))).runAll ops := fun ops =>
      List.foldl_append
    dsimp only
    rw [hrest]
    rcases afterEntry_ops cfg s.mem call with hnone | ⟨appHash, now, rfl, hdue, hsnapshot⟩
    · rw [hnone, List.take_nil, runAll_nil]
      exact hlogged
    · rw [hsnapshot]
      refine hs.snapshot hord (hsafe.2.2 hdue) hlogged ?_ _
      unfold writeWalEntry
      rw [runAll_append]
  · rw [cut_torn hwhole, hops, List.take_append_of_le_length (by omega)]
    obtain ⟨es, hlog⟩ := hs.durable.log
    refine ⟨⟨es, hlog.torn hsafe.1 hsafe.2.1 (by omega)⟩, hs.durable.reached,
      hs.durable.bounded, ?_⟩
    have hsnaps : (s.disk.runAll ((writeWalEntry (s.mem.entry call)).take n)).snaps =
        s.disk.snaps := by
      unfold writeWalEntry
      rw [← List.map_take, runAll_append]
    intro k m hk
    rw [hsnaps] at hk
    exact hs.durable.below k m hk

/-- A crash finds a durable disk. -/
theorem Consistent.interrupted (hs : Consistent s) {during : Option (MmapCall × Nat)}
    (hok : ∀ p ∈ during, s.InOrder p.1 ∧ s.Safe cfg p.1) :
    Durable (s.interrupted cfg during).disk (s.interrupted cfg during).committed
      (s.interrupted cfg during).lastBegun := by
  cases during with
  | none => exact hs.durable
  | some p =>
    obtain ⟨hord, hsafe⟩ := hok p rfl
    exact hs.cut hord hsafe p.2

/-! #### Calls -/

/-- After a snapshot the heights in memory are those of the files. -/
theorem Consistent.listed_snapshot {appHash : Bytes32} {now : UInt64} (hs : Consistent s)
    (hord : s.InOrder (.commitBlock appHash now)) (hsnaps : disk.snaps = s.disk.snaps) :
    (s.mem.takeSnapshot cfg).2.snapshots.Pairwise (· < ·) ∧
    ∀ k : Nat, k ∈ (s.mem.takeSnapshot cfg).2.snapshots ↔
      ((disk.runAll (s.mem.takeSnapshot cfg).1).snaps[k]?).isSome := by
  obtain ⟨p, hp⟩ := Option.isSome_iff_exists.mp hord
  obtain ⟨hp1, hcurrent, hlater⟩ := hs.begun p hp
  have hsorted : (s.mem.snapshots ++ [s.lastBegun]).Pairwise (· < ·) := by
    refine List.pairwise_append.mpr ⟨hs.sorted, List.pairwise_singleton _ _, ?_⟩
    intro a ha b hb
    rw [List.mem_singleton.mp hb]
    obtain ⟨m, hm⟩ := Option.isSome_iff_exists.mp ((hs.listed a).mp ha)
    obtain ⟨h, hh, hah⟩ := hs.durable.below a m hm
    exact Nat.lt_of_le_of_lt hah (hlater h hh)
  unfold takeSnapshot
  rw [pruneSnapshots_eq, hcurrent]
  generalize hj : (s.mem.snapshots ++ [s.lastBegun]).length - cfg.maxSnapshots = j
  refine ⟨hsorted.sublist (List.drop_sublist _ _), fun k => ?_⟩
  have hdisk : (disk.runAll (DiskOp.rename s.lastBegun s.mem.state ::
      (((s.mem.snapshots ++ [s.lastBegun]).take j).map DiskOp.removeFile ++
        [DiskOp.truncateWal]))).snaps[k]? =
      if k ∈ (s.mem.snapshots ++ [s.lastBegun]).take j then none
      else (s.disk.snaps.insert s.lastBegun s.mem.state)[k]? := by
    have hfold := FinMap.get_foldl_erase (s.disk.snaps.insert s.lastBegun s.mem.state) k id
      ((s.mem.snapshots ++ [s.lastBegun]).take j)
    rw [List.map_id] at hfold
    rw [← hfold, ← hsnaps]
    have hremoved := runAll_removeFile (DiskOp.run disk (.rename s.lastBegun s.mem.state))
      ((s.mem.snapshots ++ [s.lastBegun]).take j)
    have hsnaps' := congrArg (fun d : MmapDisk => d.snaps[k]?) hremoved
    refine Eq.trans ?_ hsnaps'
    unfold MmapDisk.runAll
    rw [List.foldl_cons, List.foldl_append]
    rfl
  have hnodup : (s.mem.snapshots ++ [s.lastBegun]).Nodup := hsorted.imp fun h => Nat.ne_of_lt h
  have hsplit : k ∈ (s.mem.snapshots ++ [s.lastBegun]).drop j ↔
      k ∈ s.mem.snapshots ++ [s.lastBegun] ∧
        k ∉ (s.mem.snapshots ++ [s.lastBegun]).take j := by
    rw [← List.take_append_drop j (s.mem.snapshots ++ [s.lastBegun]), List.nodup_append] at hnodup
    constructor
    · intro hk
      exact ⟨List.mem_of_mem_drop hk, fun ht => hnodup.2.2 k ht k hk rfl⟩
    · rintro ⟨hk, ht⟩
      rw [← List.take_append_drop j (s.mem.snapshots ++ [s.lastBegun])] at hk
      exact (List.mem_append.mp hk).resolve_left ht
  dsimp only
  rw [hsplit, hdisk, List.mem_append, List.mem_singleton, hs.listed k]
  by_cases ht : k ∈ (s.mem.snapshots ++ [s.lastBegun]).take j
  · simp [ht]
  · rw [if_neg ht, FinMap.get_insert]
    by_cases hk : s.lastBegun = k
    · subst hk
      simp [ht]
    · simp [hk, ht, Ne.symm hk]

theorem Consistent.of_parts {mem : MmapState} (hd : Durable disk c lastBegun)
    (hstate : mem.state = editAll c.map c.edits)
    (hbegun : ∀ p ∈ c.begun, p.1 = lastBegun ∧ mem.currentHeight = lastBegun ∧
      ∀ h ∈ c.height, h < lastBegun)
    (hfiles : mem.snapshots.Pairwise (· < ·) ∧
      ∀ k : Nat, k ∈ mem.snapshots ↔ (disk.snaps[k]?).isSome) :
    Consistent ⟨disk, mem, c, lastBegun⟩ :=
  ⟨hd, hstate, hbegun, hfiles.1, hfiles.2⟩

/-- A call in order that is safe keeps the node consistent. -/
theorem Consistent.calls (hs : Consistent s) (hord : s.InOrder call) (hsafe : s.Safe cfg call)
    (hstep : step cfg (.call call) s = .ok s') : Consistent s' := by
  obtain rfl := pure_inv hstep
  have hdurable : Durable (s.disk.runAll (s.mem.run cfg call).1) (s.committed.run call)
      (s.begunAfter call) := by
    have hcut := hs.cut hord hsafe (s.mem.run cfg call).1.length
    have hwhole : (walFraming.frame (s.mem.entry call).encode).length ≤
        (s.mem.run cfg call).1.length := by
      show _ ≤ (writeWalEntry (s.mem.entry call) ++ (s.mem.afterEntry cfg call).1).length
      rw [List.length_append]
      unfold writeWalEntry
      rw [List.length_map]
      omega
    rw [cut_whole hwhole, List.take_length] at hcut
    dsimp only at hcut
    exact hcut
  have hplain : ∀ m : MmapState, s.mem.run cfg call = (writeWalEntry (s.mem.entry call), m) →
      m.snapshots = s.mem.snapshots → (s.mem.run cfg call).2.snapshots.Pairwise (· < ·) ∧
        ∀ k : Nat, k ∈ (s.mem.run cfg call).2.snapshots ↔
          ((s.disk.runAll (s.mem.run cfg call).1).snaps[k]?).isSome := by
    intro m hrun hsnapshots
    rw [hrun]
    dsimp only
    unfold writeWalEntry
    rw [hsnapshots, runAll_append]
    exact ⟨hs.sorted, hs.listed⟩
  refine .of_parts hdurable ?_ ?_ ?_
  · -- the map in memory
    cases call with
    | beginBlock height now => exact hs.state.trans hsafe.2.2
    | set key value now =>
      obtain ⟨p, hp⟩ := Option.isSome_iff_exists.mp hord
      show s.mem.state.insert key value = _
      rw [hs.state]
      simp only [CommittedState.run, CommittedState.write, CommittedState.edits, hp,
        Option.map_some, Option.getD_some, editAll_append]
      rfl
    | delete key now =>
      obtain ⟨p, hp⟩ := Option.isSome_iff_exists.mp hord
      show s.mem.state.erase key = _
      rw [hs.state]
      simp only [CommittedState.run, CommittedState.write, CommittedState.edits, hp,
        Option.map_some, Option.getD_some, editAll_append]
      rfl
    | commitBlock appHash now =>
      obtain ⟨p, hp⟩ := Option.isSome_iff_exists.mp hord
      have hstate : (s.mem.run cfg (.commitBlock appHash now)).2.state = s.mem.state := by
        unfold MmapState.run afterEntry
        by_cases hdue : s.mem.SnapshotDue cfg
        · simp only [if_pos hdue, takeSnapshot]
        · simp only [if_neg hdue]
      rw [hstate, hs.state]
      simp only [CommittedState.run, CommittedState.edits, hp]
      rfl
  · -- the block that is begun
    cases call with
    | beginBlock height now =>
      intro p hp
      obtain rfl := Option.some.inj hp
      exact ⟨rfl, rfl, hord.2⟩
    | set key value now =>
      obtain ⟨p, hp⟩ := Option.isSome_iff_exists.mp hord
      intro q hq
      simp only [CommittedState.run, CommittedState.write, hp] at hq
      obtain rfl := Option.some.inj hq
      exact hs.begun p hp
    | delete key now =>
      obtain ⟨p, hp⟩ := Option.isSome_iff_exists.mp hord
      intro q hq
      simp only [CommittedState.run, CommittedState.write, hp] at hq
      obtain rfl := Option.some.inj hq
      exact hs.begun p hp
    | commitBlock appHash now =>
      obtain ⟨p, hp⟩ := Option.isSome_iff_exists.mp hord
      intro q hq
      simp only [CommittedState.run, hp] at hq
      cases hq
  · -- the snapshots
    cases call with
    | beginBlock height now =>
      exact hplain { s.mem with currentHeight := height.toNat }
        (by simp [MmapState.run, afterEntry]) rfl
    | set key value now =>
      exact hplain { s.mem with state := s.mem.state.insert key value, dirty := true }
        (by simp [MmapState.run, afterEntry]) rfl
    | delete key now =>
      exact hplain { s.mem with state := s.mem.state.erase key, dirty := true }
        (by simp [MmapState.run, afterEntry]) rfl
    | commitBlock appHash now =>
      by_cases hdue : s.mem.SnapshotDue cfg
      · have hrun : s.mem.run cfg (.commitBlock appHash now) =
            (writeWalEntry (s.mem.entry (.commitBlock appHash now)) ++
              (s.mem.takeSnapshot cfg).1, (s.mem.takeSnapshot cfg).2) := by
          unfold MmapState.run afterEntry
          rw [if_pos hdue]
        have hrest : s.disk.runAll (writeWalEntry (s.mem.entry (.commitBlock appHash now)) ++
            (s.mem.takeSnapshot cfg).1) =
              (s.disk.runAll (writeWalEntry (s.mem.entry (.commitBlock appHash now)))).runAll
                (s.mem.takeSnapshot cfg).1 := List.foldl_append
        rw [hrun, hrest]
        refine hs.listed_snapshot hord ?_
        unfold writeWalEntry
        rw [runAll_append]
      · exact hplain s.mem (by simp [MmapState.run, afterEntry, hdue]) rfl

theorem consistent_start : Consistent start := by
  have hd : Durable start.disk start.committed start.lastBegun := by
    refine ⟨⟨[], .empty rfl ?_⟩, le_rfl, by show 0 < 2 ^ 64; omega, fun k m hk => ?_⟩
    · have hnil : (∅ : FinMap Nat StateMap).toList = [] := by
        simp [Std.ExtTreeMap.toList_eq_nil_iff]
      unfold restored start
      dsimp only
      rw [hnil]
      rfl
    · change (∅ : FinMap Nat StateMap)[k]? = some m at hk
      rw [FinMap.get_empty] at hk
      cases hk
  exact hd.reboot rfl

/-- **Step lemma.** A sound step keeps the node consistent. -/
theorem Consistent.step (hs : Consistent s) {action : MmapStep} (hok : Sound cfg s action)
    (hstep : step cfg action s = .ok s') : Consistent s' := by
  cases action with
  | call call => exact hs.calls hok.1 hok.2 hstep
  | crash during =>
    obtain rfl := pure_inv hstep
    exact (hs.interrupted hok.1).reboot hok.2

/-- **Crash recovery.** After a run of sound steps, a crash between two calls or anywhere in a
call that is in order and safe recovers the map and the height of the last committed block if
and only if the writes it drops leave that map as it is. -/
theorem crash_recovers_iff (h : Run.Reaches (step cfg) (Sound cfg) start s)
    {during : Option (MmapCall × Nat)}
    (hok : ∀ p ∈ during, s.InOrder p.1 ∧ s.Safe cfg p.1) :
    Recovered (s.interrupted cfg during).reboot ↔
      (s.interrupted cfg during).committed.Droppable := by
  have hs : Consistent s :=
    h.invariant consistent_start fun _ _ _ hs hok hstep => hs.step hok hstep
  exact (hs.interrupted hok).recovered_iff

end MmapNode

/-! ### The layout of bincode -/

namespace WalEntry.Bincode

/-- A string of bytes behind its length. -/
def encodeBytes (bytes : List UInt8) : List UInt8 := leBytes 8 bytes.length ++ bytes

/-- An operation behind the number of its variant. -/
def encodeOp : WalOp → List UInt8
  | .set key value => leBytes 4 0 ++ encodeBytes key ++ encodeBytes value
  | .delete key => leBytes 4 1 ++ encodeBytes key
  | .beginBlock height => leBytes 4 2 ++ leBytes 8 height
  | .commitBlock height appHash => leBytes 4 3 ++ leBytes 8 height ++ appHash.val

/-- `bincode::serialize`. -/
def encode (e : WalEntry) : List UInt8 :=
  leBytes 8 e.height ++ encodeOp e.op ++ leBytes 8 e.timestamp

/-- The first bytes, and the rest. -/
def takeBytes (n : Nat) (bytes : List UInt8) : Option (List UInt8 × List UInt8) :=
  if bytes.length < n then none else some (bytes.take n, bytes.drop n)

def decodeNat (width : Nat) (bytes : List UInt8) : Option (Nat × List UInt8) := do
  let (n, rest) ← takeBytes width bytes
  return (ofLeBytes n, rest)

def decodeBytes (bytes : List UInt8) : Option (List UInt8 × List UInt8) := do
  let (n, rest) ← decodeNat 8 bytes
  takeBytes n rest

def decodeOp (bytes : List UInt8) : Option (WalOp × List UInt8) := do
  let (variant, rest) ← decodeNat 4 bytes
  match variant with
  | 0 =>
    let (key, rest) ← decodeBytes rest
    let (value, rest) ← decodeBytes rest
    return (.set key value, rest)
  | 1 =>
    let (key, rest) ← decodeBytes rest
    return (.delete key, rest)
  | 2 =>
    let (height, rest) ← decodeNat 8 rest
    return (.beginBlock height, rest)
  | 3 =>
    let (height, rest) ← decodeNat 8 rest
    let (appHash, rest) ← takeBytes 32 rest
    return (.commitBlock height (.ofPrefix appHash), rest)
  | _ => none

/-- `bincode::deserialize`. Bytes after the entry are ignored. -/
def decode (bytes : List UInt8) : Option WalEntry := do
  let (height, rest) ← decodeNat 8 bytes
  let (op, rest) ← decodeOp rest
  let (timestamp, _) ← decodeNat 8 rest
  return ⟨height, op, timestamp⟩

/-- The length of a string fits 64 bits. -/
def Short : WalOp → Prop
  | .set key value => key.length < 2 ^ 64 ∧ value.length < 2 ^ 64
  | .delete key => key.length < 2 ^ 64
  | _ => True

theorem takeBytes_append (bytes rest : List UInt8) :
    takeBytes bytes.length (bytes ++ rest) = some (bytes, rest) := by
  unfold takeBytes
  rw [if_neg (by rw [List.length_append]; omega), List.take_left, List.drop_left]

theorem decodeNat_leBytes {width n : Nat} (h : n < 256 ^ width) (rest : List UInt8) :
    decodeNat width (leBytes width n ++ rest) = some (n, rest) := by
  have htake := takeBytes_append (leBytes width n) rest
  rw [length_leBytes] at htake
  have hvalue : ofLeBytes (leBytes width n) = n := ofBeBytes_beBytes h
  unfold decodeNat
  rw [htake]
  exact congrArg (fun v => some (v, rest)) hvalue

theorem decodeBytes_encodeBytes {bytes : List UInt8} (h : bytes.length < 2 ^ 64)
    (rest : List UInt8) : decodeBytes (encodeBytes bytes ++ rest) = some (bytes, rest) := by
  unfold decodeBytes encodeBytes
  rw [List.append_assoc, decodeNat_leBytes (by omega)]
  exact takeBytes_append bytes rest

theorem decodeOp_encodeOp {op : WalOp} (h : OpFits op) (hshort : Short op) (rest : List UInt8) :
    decodeOp (encodeOp op ++ rest) = some (op, rest) := by
  unfold decodeOp encodeOp
  cases op with
  | set key value =>
    simp only [List.append_assoc]
    rw [decodeNat_leBytes (by omega)]
    simp only [Option.bind_eq_bind, Option.bind_some, decodeBytes_encodeBytes hshort.1,
      decodeBytes_encodeBytes hshort.2]
    rfl
  | delete key =>
    simp only [List.append_assoc]
    rw [decodeNat_leBytes (by omega)]
    simp only [Option.bind_eq_bind, Option.bind_some, decodeBytes_encodeBytes hshort]
    rfl
  | beginBlock height =>
    simp only [List.append_assoc]
    rw [decodeNat_leBytes (by omega)]
    simp only [Option.bind_eq_bind, Option.bind_some]
    rw [decodeNat_leBytes (by have hlt : height < 2 ^ 64 := h; omega)]
    rfl
  | commitBlock height appHash =>
    simp only [List.append_assoc]
    rw [decodeNat_leBytes (by omega)]
    simp only [Option.bind_eq_bind, Option.bind_some]
    have hhash := takeBytes_append appHash.val rest
    rw [appHash.property] at hhash
    rw [decodeNat_leBytes (by have hlt : height < 2 ^ 64 := h; omega)]
    simp only [Option.bind_some, hhash]
    exact congrArg (fun v => some (WalOp.commitBlock height v, rest))
      (Subtype.ext (Bytes32.ofPrefix_val appHash.property))

theorem length_le_encodeBytes (bytes : List UInt8) :
    bytes.length ≤ (encodeBytes bytes).length := by
  unfold encodeBytes
  rw [List.length_append]
  omega

/-- The strings of an operation are shorter than its record. -/
theorem lengths_lt {e : WalEntry} (hrecord : (encode e).length < 2 ^ 32) : Short e.op := by
  unfold encode at hrecord
  simp only [List.length_append] at hrecord
  cases hop : e.op with
  | set key value =>
    have hkey := length_le_encodeBytes key
    have hvalue := length_le_encodeBytes value
    simp only [hop, encodeOp, List.length_append] at hrecord
    exact ⟨by omega, by omega⟩
  | delete key =>
    have hkey := length_le_encodeBytes key
    simp only [hop, encodeOp, List.length_append] at hrecord
    show key.length < 2 ^ 64
    omega
  | _ => exact trivial

/-- **Round trip.** A record reads back. -/
theorem decode_encode {e : WalEntry} (hheight : e.height < 2 ^ 64) (hop : OpFits e.op)
    (htime : e.timestamp < 2 ^ 64) (hrecord : (encode e).length < 2 ^ 32) :
    decode (encode e) = some e := by
  have hshort := lengths_lt hrecord
  unfold decode encode
  rw [List.append_assoc, decodeNat_leBytes (by omega)]
  simp only [Option.bind_eq_bind, Option.bind_some, decodeOp_encodeOp hop hshort]
  have htail := @decodeNat_leBytes 8 e.timestamp (by omega) []
  rw [List.append_nil] at htail
  rw [htail]
  rfl

end WalEntry.Bincode

/-- The log in the layout of bincode. -/
instance bincodeWal : WalFormat where
  serialize := WalEntry.Bincode.encode
  deserialize := WalEntry.Bincode.decode
  deserialize_serialize _ := WalEntry.Bincode.decode_encode

/-! ### Runs of one and two blocks -/

namespace MmapNode

open MmapState

variable {cfg : MmapStateConfig} {s : MmapNode} {call : MmapCall} {c : CommittedState}

instance (s : MmapNode) (call : MmapCall) : Decidable (s.InOrder call) := by
  cases call <;> unfold InOrder <;> infer_instance

/-- The calls of a step are in order. -/
def Ordered (s : MmapNode) : MmapStep → Prop
  | .call call => s.InOrder call
  | .crash during => ∀ p ∈ during, s.InOrder p.1

instance (s : MmapNode) (action : MmapStep) : Decidable (s.Ordered action) := by
  cases action <;> unfold Ordered <;> infer_instance

instance (wal : List UInt8) : Decidable (Whole wal) := inferInstanceAs (Decidable (_ = _))

/-- A block that has no writes loses none. -/
theorem droppable_of_nil (h : c.edits = []) : c.Droppable := by
  unfold CommittedState.Droppable
  rw [h]
  rfl

/-- A call begins a block. -/
def begins : MmapCall → Bool
  | .beginBlock _ _ => true
  | _ => false

/-- A test of a call that is enough for it to be in order and safe. -/
def Passes (cfg : MmapStateConfig) (s : MmapNode) (call : MmapCall) : Prop :=
  s.InOrder call ∧ Whole s.disk.wal ∧ (s.mem.entry call).encode.length < 2 ^ 32 ∧
    0 < cfg.maxSnapshots ∧ (begins call → s.committed.edits = [])

instance (s : MmapNode) (call : MmapCall) : Decidable (Passes cfg s call) :=
  inferInstanceAs (Decidable (_ ∧ _ ∧ _ ∧ _ ∧ (_ → _)))

theorem Passes.sound (h : Passes cfg s call) : s.InOrder call ∧ s.Safe cfg call := by
  obtain ⟨hord, hwhole, hrecord, hmax, hnil⟩ := h
  refine ⟨hord, hwhole, hrecord, ?_⟩
  cases call with
  | beginBlock height now => exact droppable_of_nil (hnil rfl)
  | commitBlock appHash now => exact fun _ => hmax
  | _ => exact trivial

/-- A key and a value. -/
def sampleKey : List UInt8 := [1]

def sampleValue : List UInt8 := [2]

/-- The calls of a block that writes the value. -/
def sampleCalls (height : UInt64) : List MmapCall :=
  [.beginBlock height 0, .set sampleKey sampleValue 0, .commitBlock (.ofPrefix []) 0]

def sampleBlock (height : UInt64) : List MmapStep := (sampleCalls height).map .call

theorem recovers_sampleBlock : ∃ s : MmapNode, s.committed.height = some 1 ∧
    s.committed.map[sampleKey]? = some sampleValue ∧
    Recovered (s.interrupted ⟨1, 1⟩ (some (.beginBlock 2 0, 5))).reboot := by
  obtain ⟨s, hs, ht⟩ := Exec.exists_of_test
    (x := (sampleCalls 1).foldlM (fun (s : MmapNode) (call : MmapCall) =>
      if Passes ⟨1, 1⟩ s call then step ⟨1, 1⟩ (.call call) s else .error .panic) start)
    (p := fun s => s.committed.height = some 1 ∧
      s.committed.map[sampleKey]? = some sampleValue ∧ Passes ⟨1, 1⟩ s (.beginBlock 2 0) ∧
      (s.interrupted ⟨1, 1⟩ (some (.beginBlock 2 0, 5))).committed.edits = [])
    (by decide +kernel)
  have hrun : Run.Reaches (step ⟨1, 1⟩) (Sound ⟨1, 1⟩) start s := by
    refine Exec.foldlM_induction (P := Run.Reaches (step ⟨1, 1⟩) (Sound ⟨1, 1⟩) start) hs .refl ?_
    intro call _ t u ht hu
    split at hu
    · rename_i hpass
      exact ht.tail (.call call) hpass.sound hu
    · cases hu
  obtain ⟨hheight, hmap, hpass, hnil⟩ := of_decide_eq_true ht
  refine ⟨s, hheight, hmap, (crash_recovers_iff hrun ?_).mpr (droppable_of_nil hnil)⟩
  rintro p hp
  obtain rfl := Option.some.inj hp
  exact hpass.sound

/-- A write of a block that is not committed is recovered, a block that is committed behind a
torn record is lost, and so is a block whose snapshot is removed at once. -/
theorem recovery_fails :
    (∃ s, Run.Reaches (step {}) Ordered start s ∧ s.committed.height = none ∧
      s.reboot.mem.state[sampleKey]? = some sampleValue) ∧
    (∃ s, Run.Reaches (step {}) Ordered start s ∧ s.committed.height = some 1 ∧
      s.reboot.mem.state[sampleKey]? = none) ∧
    ∃ s, Run.Reaches (step ⟨1, 0⟩) Ordered start s ∧ s.committed.height = some 1 ∧
      s.reboot.mem.state[sampleKey]? = none := by
  refine ⟨?_, ?_, ?_⟩
  · obtain ⟨s, hs, ht⟩ := Exec.exists_of_test
      (x := ((sampleBlock 1).take 2).foldlM (fun (s : MmapNode) (action : MmapStep) =>
        if s.Ordered action then step {} action s else .error .panic) start)
      (p := fun s => s.committed.height = none ∧
        s.reboot.mem.state[sampleKey]? = some sampleValue) (by decide +kernel)
    exact ⟨s, .of_checked (fun s action => inferInstance) hs, of_decide_eq_true ht⟩
  · obtain ⟨s, hs, ht⟩ := Exec.exists_of_test
      (x := (MmapStep.crash (some (.beginBlock 1 0, 2)) :: sampleBlock 1).foldlM
        (fun (s : MmapNode) (action : MmapStep) =>
          if s.Ordered action then step {} action s else .error .panic) start)
      (p := fun s => s.committed.height = some 1 ∧ s.reboot.mem.state[sampleKey]? = none)
      (by decide +kernel)
    exact ⟨s, .of_checked (fun s action => inferInstance) hs, of_decide_eq_true ht⟩
  · obtain ⟨s, hs, ht⟩ := Exec.exists_of_test
      (x := (sampleBlock 1).foldlM (fun (s : MmapNode) (action : MmapStep) =>
        if s.Ordered action then step ⟨1, 0⟩ action s else .error .panic) start)
      (p := fun s => s.committed.height = some 1 ∧ s.reboot.mem.state[sampleKey]? = none)
      (by decide +kernel)
    exact ⟨s, .of_checked (fun s action => inferInstance) hs, of_decide_eq_true ht⟩

end MmapNode

end Hypercore
