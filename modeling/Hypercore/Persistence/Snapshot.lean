import Hypercore.Lib.Codec
import Hypercore.Lib.Run
import Hypercore.Persistence.State
import Hypercore.Primitives.DecimalText
import Hypercore.Primitives.Text
/-!
# Hypercore.Persistence.Snapshot

Snapshots for state sync: cut into chunks by one node, put together by another.

A snapshot records how many chunks it has, but not how large they are: `loadChunk` cuts
the text by the chunk size that the manager has now. A decimal is written with all of its
places and read with eight.
-/

namespace Hypercore

open Exec Int128

/-- Default chunk size in bytes (1 MB). -/
def defaultChunkSize : UInt64 := 1024 * 1024

/-- Snapshot format version. -/
def snapshotFormat : UInt32 := 1

/-- Maximum number of snapshots to keep. -/
def maxSnapshots : Nat := 5

/-- A state of the application, as it is persisted. -/
abbrev PersistedState.Full := PersistedState Decimal (List UInt8)

/-- The text of a state is given by that of its decimals and of its code. -/
abbrev PersistedState.Text := PersistedState String String

inductive PersistenceError
  | io
  | notFound (what : String)
  | serialization (what : String)
  /-- The text is not that of a state. -/
  | malformed
  | invalidState (what : StateError)
  deriving DecidableEq, Repr

/-! ### Text of a state -/

/-- Write a decimal. Its scale and its absolute value are computed on the way. -/
def Decimal.serialize (d : Decimal) : Exec String := do
  let _ ← Decimal.pow10 d.decimals
  let _ ← d.abs
  return d.toStringTrimmed

/-- Read a decimal, with default precision. -/
def Decimal.deserialize (text : String) : Option Decimal :=
  Decimal.fromStrExact text.toList Decimal.priceDecimals

namespace PersistedState

/-- Write the decimals and the code of a state. -/
def toText [HexCrate] (s : Full) : Exec Text := do
  let _ ← s.decimals.mapM Decimal.serialize
  return s.map Decimal.toStringTrimmed hexEncode

/-- Read the decimals and the code of a state. -/
def ofText [HexCrate] (t : Text) : Option Full :=
  if (∀ x ∈ t.decimals, (Decimal.deserialize x).isSome) ∧
      ∀ x ∈ t.codes, (hexDecode x.toList).isSome then
    some (t.map (fun x => (Decimal.deserialize x).getD .default)
      (fun x => (hexDecode x.toList).getD []))
  else
    none

/-- The text that is written reads back when all decimals fit eight places. -/
theorem ofText_map [HexCrate] (s : Full) :
    ofText (s.map Decimal.toStringTrimmed hexEncode) =
      if ∀ d ∈ s.decimals, d.FitsOn Decimal.priceDecimals then
        some (s.map (·.onPlaces Decimal.priceDecimals) id)
      else none := by
  have hread (d : Decimal) : Decimal.deserialize d.toStringTrimmed =
      if d.FitsOn Decimal.priceDecimals then some (d.onPlaces Decimal.priceDecimals) else none :=
    Decimal.fromStrExact_toStringTrimmed d _
  have hcodes : ∀ x ∈ (s.map Decimal.toStringTrimmed hexEncode).codes,
      (hexDecode x.toList).isSome := by
    intro x hx
    rw [codes_map] at hx
    obtain ⟨bytes, -, rfl⟩ := List.mem_map.mp hx
    rw [hexDecode_hexEncode]
    rfl
  have hdecimals : (∀ x ∈ (s.map Decimal.toStringTrimmed hexEncode).decimals,
      (Decimal.deserialize x).isSome) ↔ ∀ d ∈ s.decimals, d.FitsOn Decimal.priceDecimals := by
    rw [decimals_map, List.forall_mem_map]
    refine forall₂_congr fun d _ => ?_
    rw [hread]
    by_cases hfits : d.FitsOn Decimal.priceDecimals <;> simp [hfits]
  unfold ofText
  by_cases hfits : ∀ d ∈ s.decimals, d.FitsOn Decimal.priceDecimals
  · rw [if_pos ⟨hdecimals.mpr hfits, hcodes⟩, if_pos hfits, map_map]
    refine congrArg some (map_congr (fun d hd => ?_) fun b _ => ?_)
    · rw [Function.comp_apply, hread, if_pos (hfits d hd), Option.getD_some]
    · rw [Function.comp_apply, hexDecode_hexEncode, Option.getD_some, id_eq]
  · rw [if_neg fun h => hfits (hdecimals.mp h.1), if_neg hfits]

/-- A state with its decimals as rational numbers. -/
def values (s : Full) : PersistedState ℚ (List UInt8) := s.map Decimal.toRat id

/-- What is read back has the same values. -/
theorem values_onPlaces {s : Full} {k : Nat} (h : ∀ d ∈ s.decimals, d.FitsOn k) :
    values (s.map (·.onPlaces k) id) = values s := by
  unfold values
  rw [map_map]
  exact map_congr (fun d hd => Decimal.toRat_onPlaces (h d hd)) fun b _ => rfl

end PersistedState

open PersistedState (Full Text)

/-! ### Metadata and the manager -/

/-- Snapshot metadata. -/
structure SnapshotMetadata (Hash : Type) where
  height : UInt64
  format : UInt32
  chunks : UInt32
  hash : Hash
  metadata : String
  deriving DecidableEq, Repr

/-- Snapshot manager, with the files of its directory. -/
structure SnapshotManager (Hash : Type) where
  chunkSize : UInt64 := defaultChunkSize
  snapshots : FinMap UInt64 (SnapshotMetadata Hash) := ∅
  /-- `snapshot_{height}.json`. -/
  jsonFiles : FinMap UInt64 (List UInt8) := ∅
  /-- `snapshot_{height}.meta`. -/
  metaFiles : FinMap UInt64 (SnapshotMetadata Hash) := ∅

section Manager

variable {Hash : Type} (J : Codec Text (List UInt8)) (H : List UInt8 → Hash)

/-- The number of chunks that cover a text. -/
def chunkCount (totalBytes : Nat) (chunkSize : UInt64) : Exec UInt32 := do
  let sum ← u64 (totalBytes + chunkSize.toNat)
  if chunkSize = 0 then
    .error .panic
  else
    return UInt32.ofNat ((sum - 1) / chunkSize.toNat)

namespace SnapshotManager

variable (m : SnapshotManager Hash)

/-- Remove the files of a snapshot, and its entry. -/
def remove (height : UInt64) : SnapshotManager Hash :=
  { m with
    jsonFiles := m.jsonFiles.erase height
    metaFiles := m.metaFiles.erase height
    snapshots := m.snapshots.erase height }

/-- Remove old snapshots to keep disk usage bounded: the lowest go. -/
def cleanupOldSnapshots : SnapshotManager Hash :=
  let heights := m.snapshots.toList.map Prod.fst
  (heights.take (heights.length - maxSnapshots)).foldl remove m

/-- Create a snapshot of the state that the checkpoint has. -/
def createSnapshot [HexCrate] (height : UInt64) (loaded : Option Full) (createdAt : String) :
    Exec (Except PersistenceError (SnapshotMetadata Hash) × SnapshotManager Hash) :=
  match loaded with
  | none => return (.error (.notFound "No state in checkpoint"), m)
  | some state => do
    let text ← state.toText
    let stateJson := J.encode text
    let chunks ← chunkCount stateJson.length m.chunkSize
    let metadata : SnapshotMetadata Hash :=
      { height, format := snapshotFormat, chunks, hash := H stateJson, metadata := createdAt }
    let m := { m with
      jsonFiles := m.jsonFiles.insert height stateJson
      metaFiles := m.metaFiles.insert height metadata
      snapshots := m.snapshots.insert height metadata }
    return (.ok metadata, m.cleanupOldSnapshots)

/-- List available snapshots, most recent first. -/
def listSnapshots : List (SnapshotMetadata Hash) := (m.snapshots.toList.map Prod.snd).reverse

/-- Load a chunk from a snapshot. -/
def loadChunk (height : UInt64) (chunkIndex : UInt32) :
    Exec (Except PersistenceError (List UInt8)) :=
  match m.snapshots[height]? with
  | none => return .error (.notFound s!"Snapshot at height {height}")
  | some metadata =>
    if metadata.chunks ≤ chunkIndex then
      return .error (.notFound s!"Chunk {chunkIndex} out of range (max: {metadata.chunks})")
    else
      match m.jsonFiles[height]? with
      | none => return .error .io
      | some stateJson => do
        let start ← u64 (chunkIndex.toNat * m.chunkSize.toNat)
        let stop ← u64 (start + m.chunkSize.toNat)
        let stop := min stop stateJson.length
        -- slicing backwards panics
        if start ≤ stop then
          return .ok ((stateJson.drop start).take (stop - start))
        else
          .error .panic

/-- Open a manager on the directory: metadata is read from disk, in the order of its files,
and the chunk size is the default. -/
def reopen (ord : HashOrder) : SnapshotManager Hash where
  snapshots := FinMap.insertAll ∅
    (ord.visit (m.metaFiles.toList.map fun p => (p.2.height, p.2)))
  jsonFiles := m.jsonFiles
  metaFiles := m.metaFiles

/-- Set chunk size. -/
def withChunkSize (chunkSize : UInt64) : SnapshotManager Hash := { m with chunkSize }

/-- What is done with a manager and its directory. -/
inductive Op
  | create (height : UInt64) (loaded : Option Full) (createdAt : String)
  | reopen (ord : HashOrder)
  | withChunkSize (chunkSize : UInt64)

def step [HexCrate] (op : Op) (m : SnapshotManager Hash) : Exec (SnapshotManager Hash) :=
  match op with
  | .create height loaded createdAt =>
    Prod.snd <$> m.createSnapshot J H height loaded createdAt
  | .reopen ord => return m.reopen ord
  | .withChunkSize chunkSize => return m.withChunkSize chunkSize

end SnapshotManager

/-! ### Restoring -/

/-- Snapshot restore helper for receiving nodes. -/
structure SnapshotRestore (Hash : Type) where
  currentSnapshot : Option (SnapshotMetadata Hash) := none
  receivedChunks : FinMap UInt32 (List UInt8) := ∅

namespace SnapshotRestore

variable (r : SnapshotRestore Hash)

/-- Accept or reject an offered snapshot. -/
def offerSnapshot (metadata : SnapshotMetadata Hash) : Bool × SnapshotRestore Hash :=
  if metadata.format ≠ snapshotFormat then
    (false, r)
  else
    (true, { currentSnapshot := some metadata })

/-- Apply a received chunk, and tell whether more are needed. -/
def applyChunk (chunkIndex : UInt32) (chunkData : List UInt8) :
    Except PersistenceError Bool × SnapshotRestore Hash :=
  match r.currentSnapshot with
  | none => (.error (.notFound "No active snapshot restore"), r)
  | some metadata =>
    if metadata.chunks ≤ chunkIndex then
      (.error (.notFound s!"Chunk index {chunkIndex} out of range"), r)
    else
      let receivedChunks := r.receivedChunks.insert chunkIndex chunkData
      (.ok (receivedChunks.toList.length != metadata.chunks.toNat), { r with receivedChunks })

/-- The indices below a number of chunks. -/
def indices (chunks : UInt32) : List UInt32 := (List.range chunks.toNat).map UInt32.ofNat

/-- Take chunks out, in order, and append them. -/
def takeChunks : List UInt32 → FinMap UInt32 (List UInt8) → List UInt8 →
    Except PersistenceError (List UInt8) × FinMap UInt32 (List UInt8)
  | [], received, stateJson => (.ok stateJson, received)
  | i :: is, received, stateJson =>
    match received[i]? with
    | none => (.error (.notFound s!"Missing chunk {i}"), received)
    | some chunk => takeChunks is (received.erase i) (stateJson ++ chunk)

/-- Read a state, and validate it. -/
def readState [HexCrate] (stateJson : List UInt8) : Exec (Except PersistenceError Full) :=
  match (J.decode stateJson).bind PersistedState.ofText with
  | none => return .error .malformed
  | some state => do
    match ← state.validate with
    | .error e => return .error (.invalidState e)
    | .ok () => return .ok state

/-- Finalize the restore and return the state. -/
def finalize [HexCrate] [DecidableEq Hash] :
    Exec (Except PersistenceError Full × SnapshotRestore Hash) :=
  match r.currentSnapshot with
  | none => return (.error (.notFound "No active snapshot restore"), r)
  | some metadata =>
    let (stateJson, received) := takeChunks (indices metadata.chunks) r.receivedChunks []
    let r : SnapshotRestore Hash := { currentSnapshot := none, receivedChunks := received }
    match stateJson with
    | .error e => return (.error e, r)
    | .ok stateJson =>
      if H stateJson ≠ metadata.hash then
        return (.error (.serialization "Snapshot hash mismatch - data may be corrupted"), r)
      else do
        return (← readState J stateJson, r)

end SnapshotRestore

/-- Hand the chunks that a manager serves to a node, in some order of delivery. -/
def deliver (m : SnapshotManager Hash) (height : UInt64) :
    List UInt32 → SnapshotRestore Hash → Exec (Except PersistenceError (SnapshotRestore Hash))
  | [], r => return .ok r
  | i :: is, r => do
    match ← m.loadChunk height i with
    | .error e => return .error e
    | .ok chunk =>
      match r.applyChunk i chunk with
      | (.error e, _) => return .error e
      | (.ok _, r) => deliver m height is r

/-- A node restores the state of a snapshot that is offered by a manager. -/
def transfer [HexCrate] [DecidableEq Hash] (m : SnapshotManager Hash)
    (metadata : SnapshotMetadata Hash)
    (delivered : List UInt32) (r : SnapshotRestore Hash) : Exec (Except PersistenceError Full) := do
  match ← deliver m metadata.height delivered (r.offerSnapshot metadata).2 with
  | .error e => return .error e
  | .ok r => return (← r.finalize J H).1

/-! ### A manager and its directory -/

section Coherent

variable {J H} {m m' : SnapshotManager Hash}

/-- Every snapshot that is listed has its files, and its hash is that of its text. -/
structure SnapshotManager.Coherent (H : List UInt8 → Hash) (m : SnapshotManager Hash) : Prop where
  onDisk : m.metaFiles = m.snapshots
  filed : ∀ (height : UInt64) (metadata : SnapshotMetadata Hash),
    m.snapshots[height]? = some metadata →
      metadata.height = height ∧ metadata.format = snapshotFormat ∧
        ∃ stateJson, m.jsonFiles[height]? = some stateJson ∧ metadata.hash = H stateJson

namespace SnapshotManager.Coherent

theorem empty : ({} : SnapshotManager Hash).Coherent H where
  onDisk := rfl
  filed height metadata h := by
    rw [FinMap.get_empty] at h
    cases h

theorem remove (hm : m.Coherent H) (height : UInt64) : (m.remove height).Coherent H where
  onDisk := congrArg (·.erase height) hm.onDisk
  filed k metadata h := by
    obtain rfl | hne := eq_or_ne height k
    · rw [SnapshotManager.remove, FinMap.get_erase_self] at h
      cases h
    · rw [SnapshotManager.remove, FinMap.get_erase_ne _ hne] at h
      rw [SnapshotManager.remove, FinMap.get_erase_ne _ hne]
      exact hm.filed k metadata h

theorem removeAll (hm : m.Coherent H) (heights : List UInt64) :
    (heights.foldl SnapshotManager.remove m).Coherent H := by
  induction heights generalizing m with
  | nil => exact hm
  | cons height heights ih => exact ih (hm.remove height)

theorem insert (hm : m.Coherent H) {height : UInt64} {metadata : SnapshotMetadata Hash}
    {stateJson : List UInt8} (hheight : metadata.height = height)
    (hformat : metadata.format = snapshotFormat) (hhash : metadata.hash = H stateJson) :
    Coherent H { m with
      jsonFiles := m.jsonFiles.insert height stateJson
      metaFiles := m.metaFiles.insert height metadata
      snapshots := m.snapshots.insert height metadata } where
  onDisk := congrArg (·.insert height metadata) hm.onDisk
  filed k md h := by
    obtain rfl | hne := eq_or_ne height k
    · rw [FinMap.get_insert_self] at h
      cases h
      exact ⟨hheight, hformat, stateJson, FinMap.get_insert_self .., hhash⟩
    · rw [FinMap.get_insert_ne _ _ hne] at h
      rw [FinMap.get_insert_ne _ _ hne]
      exact hm.filed k md h

/-- Metadata is read back from disk, whatever the order of the files. -/
theorem reopen_snapshots (hm : m.Coherent H) (ord : HashOrder) :
    (m.reopen ord).snapshots = m.snapshots := by
  have hentries : m.metaFiles.toList.map (fun p => (p.2.height, p.2)) = m.snapshots.toList := by
    rw [hm.onDisk]
    conv_rhs => rw [← List.map_id m.snapshots.toList]
    refine List.map_congr_left fun p hp => ?_
    have hheight := (hm.filed p.1 p.2 (FinMap.mem_toList.mp hp)).1
    rw [hheight, id_eq]
  unfold SnapshotManager.reopen
  rw [hentries]
  exact ord.insertAll_visit m.snapshots

end SnapshotManager.Coherent

namespace SnapshotManager

variable {height : UInt64} {loaded : Option Full} {createdAt : String}
  {metadata : SnapshotMetadata Hash}

/-- **Creation.** What a snapshot is that is created. -/
theorem createSnapshot_eq_ok [HexCrate] :
    m.createSnapshot J H height loaded createdAt = .ok (.ok metadata, m') ↔
      ∃ s text chunks, loaded = some s ∧ s.toText = .ok text ∧
        chunkCount (J.encode text).length m.chunkSize = .ok chunks ∧
        metadata = ⟨height, snapshotFormat, chunks, H (J.encode text), createdAt⟩ ∧
        m' = cleanupOldSnapshots { m with
          jsonFiles := m.jsonFiles.insert height (J.encode text)
          metaFiles := m.metaFiles.insert height metadata
          snapshots := m.snapshots.insert height metadata } := by
  cases loaded with
  | none => simp [createSnapshot]
  | some s =>
    unfold createSnapshot
    simp only [bind_eq_ok, pure_eq_ok, Prod.mk.injEq, Except.ok.injEq, Option.some.injEq]
    constructor
    · rintro ⟨text, htext, chunks, hchunks, rfl, rfl⟩
      exact ⟨s, text, chunks, rfl, htext, hchunks, rfl, rfl⟩
    · rintro ⟨_, text, chunks, rfl, htext, hchunks, rfl, rfl⟩
      exact ⟨text, htext, chunks, hchunks, rfl, rfl⟩

/-- A checkpoint without a state leaves everything as it was. -/
theorem createSnapshot_error [HexCrate] {e : PersistenceError}
    (h : m.createSnapshot J H height loaded createdAt = .ok (.error e, m')) :
    m' = m := by
  cases loaded with
  | none =>
    simp only [createSnapshot, pure_eq_ok, Prod.mk.injEq] at h
    exact h.2.symm
  | some s => simp [createSnapshot] at h

/-- **Step lemma.** -/
theorem Coherent.step [HexCrate] (hm : m.Coherent H) {op : Op} (h : step J H op m = .ok m') :
    m'.Coherent H := by
  cases op with
  | create height loaded createdAt =>
    obtain ⟨⟨r, m₁⟩, hcreate, rfl⟩ := map_eq_ok.mp h
    cases r with
    | error e =>
      rw [createSnapshot_error hcreate]
      exact hm
    | ok metadata =>
      obtain ⟨s, text, chunks, -, -, -, hmetadata, rfl⟩ := createSnapshot_eq_ok.mp hcreate
      exact (hm.insert (by rw [hmetadata]) (by rw [hmetadata]) (by rw [hmetadata])).removeAll _
  | reopen ord =>
    obtain rfl := pure_inv h
    have hsnapshots := hm.reopen_snapshots ord
    exact ⟨hm.onDisk.trans hsnapshots.symm, by rw [hsnapshots]; exact hm.filed⟩
  | withChunkSize chunkSize =>
    obtain rfl := pure_inv h
    exact ⟨hm.onDisk, hm.filed⟩

/-- **Run lemma.** A manager's files are in order, whatever was done before. -/
theorem Coherent.run [HexCrate] (hm : m.Coherent H)
    (h : Run.Reaches (SnapshotManager.step J H) (fun _ _ => True) m m') : m'.Coherent H :=
  h.invariant hm fun _ _ _ hm _ h => hm.step h

/-- What is listed is there, under its height. -/
theorem Coherent.of_listed (hm : m.Coherent H) (h : metadata ∈ m.listSnapshots) :
    m.snapshots[metadata.height]? = some metadata := by
  obtain ⟨⟨height, md⟩, hmem, rfl⟩ := List.mem_map.mp (List.mem_reverse.mp h)
  have hget := FinMap.mem_toList.mp hmem
  rw [(hm.filed height md hget).1]
  exact hget

end SnapshotManager

end Coherent

end Manager

end Hypercore
