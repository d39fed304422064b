import Hypercore.Persistence.Snapshot
/-!
# Hypercore.Persistence.StateSync

What a node gets from a snapshot that it is offered.
-/

namespace Hypercore

open Exec Int128
open PersistedState (Full Text)

variable {Hash : Type} {J : Codec Text (List UInt8)} {H : List UInt8 → Hash}

/-! ### Serving -/

namespace SnapshotManager

variable {m : SnapshotManager Hash} {height : UInt64} {metadata : SnapshotMetadata Hash}
  {stateJson : List UInt8} {i : UInt32}

/-- No chunk is served beyond the number that is offered. -/
theorem loadChunk_out_of_range (hget : m.snapshots[height]? = some metadata)
    (hi : metadata.chunks ≤ i) : ∃ e, m.loadChunk height i = .ok (.error e) := by
  unfold loadChunk
  simp only [hget, if_pos hi]
  exact ⟨_, rfl⟩

/-- **Serving.** A chunk is a piece of the text by the chunk size of now; it is served when
it starts in the text and ends within the numbers. -/
theorem loadChunk_eq (hget : m.snapshots[height]? = some metadata)
    (hjson : m.jsonFiles[height]? = some stateJson) (hi : i < metadata.chunks) :
    m.loadChunk height i =
      if i.toNat * m.chunkSize.toNat ≤ stateJson.length ∧
          (i.toNat + 1) * m.chunkSize.toNat < 2 ^ 64 then
        .ok (.ok (stateJson.piece m.chunkSize.toNat i.toNat))
      else .error .panic := by
  have hsucc : (i.toNat + 1) * m.chunkSize.toNat =
      i.toNat * m.chunkSize.toNat + m.chunkSize.toNat := Nat.succ_mul ..
  unfold loadChunk
  simp only [hget, hjson, if_neg (UInt32.not_le.mpr hi), hsucc]
  generalize hstart : i.toNat * m.chunkSize.toNat = start
  unfold u64
  by_cases hstop : start + m.chunkSize.toNat < 2 ^ 64
  · rw [if_pos (by omega : start < 2 ^ 64), ok_bind, if_pos hstop, ok_bind]
    by_cases hle : start ≤ stateJson.length
    · rw [if_pos (by omega), if_pos ⟨hle, hstop⟩]
      refine congrArg (fun c => Except.ok (Except.ok c)) ?_
      unfold List.piece
      rw [hstart, List.take_eq_take_iff, List.length_drop]
      omega
    · rw [if_neg (by omega), if_neg fun h => hle h.1]
  · have hend : (if start ≤ stateJson.length ∧ start + m.chunkSize.toNat < 2 ^ 64 then
        .ok (.ok (stateJson.piece m.chunkSize.toNat i.toNat)) else .error .panic :
          Exec (Except PersistenceError (List UInt8))) = .error .panic := if_neg fun h => hstop h.2
    rw [hend]
    by_cases hlt : start < 2 ^ 64
    · rw [if_pos hlt, ok_bind, if_neg hstop]
      rfl
    · rw [if_neg hlt]
      rfl

/-- All chunks are served exactly when the last one starts in the text. -/
theorem served_iff (hget : m.snapshots[height]? = some metadata)
    (hjson : m.jsonFiles[height]? = some stateJson) :
    (∀ i < metadata.chunks, ∃ chunk, m.loadChunk height i = .ok (.ok chunk)) ↔
      (metadata.chunks.toNat - 1) * m.chunkSize.toNat ≤ stateJson.length ∧
        metadata.chunks.toNat * m.chunkSize.toNat < 2 ^ 64 := by
  have hone (i : UInt32) (hi : i < metadata.chunks) :
      (∃ chunk, m.loadChunk height i = .ok (.ok chunk)) ↔
        i.toNat * m.chunkSize.toNat ≤ stateJson.length ∧
          (i.toNat + 1) * m.chunkSize.toNat < 2 ^ 64 := by
    rw [loadChunk_eq hget hjson hi]
    split <;> simp_all
  constructor
  · intro h
    by_cases h0 : metadata.chunks.toNat = 0
    · rw [h0, Nat.zero_sub, Nat.zero_mul]
      exact ⟨Nat.zero_le _, by decide⟩
    · have hlast : (metadata.chunks - 1).toNat = metadata.chunks.toNat - 1 :=
        UInt32.toNat_sub_of_le _ _ (UInt32.le_iff_toNat_le.mpr (Nat.one_le_iff_ne_zero.mpr h0))
      have hlt : metadata.chunks - 1 < metadata.chunks := by
        rw [UInt32.lt_iff_toNat_lt, hlast]
        omega
      have hend := (hone _ hlt).mp (h _ hlt)
      rw [hlast, Nat.sub_add_cancel (Nat.one_le_iff_ne_zero.mpr h0)] at hend
      exact hend
  · rintro ⟨hstart, hstop⟩ i hi
    have hle : i.toNat + 1 ≤ metadata.chunks.toNat := UInt32.lt_iff_toNat_lt.mp hi
    refine (hone i hi).mpr ⟨?_, ?_⟩
    · exact (Nat.mul_le_mul_right _ (by omega)).trans hstart
    · exact (Nat.mul_le_mul_right _ hle).trans_lt hstop

end SnapshotManager

/-! ### Reassembly -/

namespace SnapshotRestore

variable {r r' : SnapshotRestore Hash} {metadata : SnapshotMetadata Hash}

theorem mem_indices {chunks i : UInt32} : i ∈ indices chunks ↔ i < chunks := by
  unfold indices
  rw [List.mem_map]
  constructor
  · rintro ⟨k, hk, rfl⟩
    have hlt := List.mem_range.mp hk
    have hsize := chunks.toNat_lt
    rw [UInt32.lt_iff_toNat_lt, UInt32.toNat_ofNat']
    omega
  · intro hi
    exact ⟨i.toNat, List.mem_range.mpr (UInt32.lt_iff_toNat_lt.mp hi), UInt32.ofNat_toNat⟩

theorem nodup_indices (chunks : UInt32) : (indices chunks).Nodup := by
  refine List.Nodup.map_on (fun x hx y hy h => ?_) List.nodup_range
  have hsize := chunks.toNat_lt
  have hxlt := List.mem_range.mp hx
  have hylt := List.mem_range.mp hy
  have hnat := congrArg UInt32.toNat h
  rw [UInt32.toNat_ofNat', UInt32.toNat_ofNat'] at hnat
  omega

/-- The chunks that were received, put together. -/
def reassembled (r : SnapshotRestore Hash) (chunks : UInt32) : Option (List UInt8) :=
  ((indices chunks).mapM fun i => r.receivedChunks[i]?).map List.flatten

theorem takeChunks_eq_ok {is : List UInt32} (hnodup : is.Nodup)
    {received : FinMap UInt32 (List UInt8)} {acc stateJson : List UInt8} :
    (takeChunks is received acc).1 = .ok stateJson ↔
      (is.mapM fun i => received[i]?).map (fun chunks => acc ++ chunks.flatten) =
        some stateJson := by
  induction is generalizing received acc with
  | nil => simp [takeChunks]
  | cons i is ih =>
    obtain ⟨hnot, hnodup⟩ := List.nodup_cons.mp hnodup
    have hrest (chunk : List UInt8) : (is.mapM fun j => (received.erase i)[j]?) =
        is.mapM fun j => received[j]? := by
      refine List.mapM_congr_left fun j hj => ?_
      exact FinMap.get_erase_ne _ fun h => hnot (h ▸ hj)
    unfold takeChunks
    rw [List.mapM_cons]
    cases hget : received[i]? with
    | none => simp
    | some chunk =>
      simp only
      rw [ih hnodup, hrest chunk]
      cases is.mapM fun j => received[j]? <;> simp

/-- **Integrity.** What finalize returns was put together from the chunks, and hashes to the
offered hash. -/
theorem finalize_eq_ok [HexCrate] [DecidableEq Hash] {s : Full} :
    (∃ r', r.finalize J H = .ok (.ok s, r')) ↔ ∃ metadata stateJson,
      r.currentSnapshot = some metadata ∧ r.reassembled metadata.chunks = some stateJson ∧
        H stateJson = metadata.hash ∧ readState J stateJson = .ok (.ok s) := by
  unfold finalize
  cases hcurrent : r.currentSnapshot with
  | none => simp
  | some metadata =>
    have htake (stateJson : List UInt8) :
        (takeChunks (indices metadata.chunks) r.receivedChunks []).1 = .ok stateJson ↔
          r.reassembled metadata.chunks = some stateJson := by
      rw [takeChunks_eq_ok (nodup_indices _)]
      simp [reassembled]
    rcases htaken : takeChunks (indices metadata.chunks) r.receivedChunks [] with ⟨taken, received⟩
    rw [htaken] at htake
    cases taken with
    | error e =>
      have hnone (stateJson : List UInt8) : r.reassembled metadata.chunks ≠ some stateJson := by
        intro h
        cases (htake stateJson).mpr h
      simp [htaken, hnone]
    | ok stateJson =>
      have hsome : r.reassembled metadata.chunks = some stateJson := (htake stateJson).mp rfl
      by_cases hhash : H stateJson = metadata.hash
      · simp [htaken, hsome, hhash]
      · simp [htaken, hsome, hhash]

/-- **Delivery.** After chunks were delivered, in any order and however often, these are the
ones that are there. -/
theorem deliver_eq_ok {m : SnapshotManager Hash} {height : UInt64} {chunk : UInt32 → List UInt8}
    {is : List UInt32} (hcurrent : r.currentSnapshot = some metadata)
    (hserved : ∀ i ∈ is, m.loadChunk height i = .ok (.ok (chunk i)))
    (hrange : ∀ i ∈ is, i < metadata.chunks) :
    ∃ r', deliver m height is r = .ok (.ok r') ∧ r'.currentSnapshot = some metadata ∧
      ∀ i, r'.receivedChunks[i]? = if i ∈ is then some (chunk i) else r.receivedChunks[i]? := by
  induction is generalizing r with
  | nil => exact ⟨r, rfl, hcurrent, fun i => by simp⟩
  | cons i is ih =>
    have happly : ∃ more, r.applyChunk i (chunk i) = (.ok more,
        { r with receivedChunks := r.receivedChunks.insert i (chunk i) }) := by
      unfold applyChunk
      simp only [hcurrent, if_neg (UInt32.not_le.mpr (hrange i (.head _)))]
      exact ⟨_, rfl⟩
    obtain ⟨more, happly⟩ := happly
    obtain ⟨r', hdeliver, hcurrent', hreceived⟩ :=
      ih (r := { r with receivedChunks := r.receivedChunks.insert i (chunk i) }) hcurrent
        (fun j hj => hserved j (.tail _ hj)) (fun j hj => hrange j (.tail _ hj))
    refine ⟨r', ?_, hcurrent', fun j => ?_⟩
    · unfold deliver
      rw [hserved i (.head _), ok_bind]
      simp only [happly]
      exact hdeliver
    · rw [hreceived, FinMap.get_insert]
      by_cases hji : i = j
      · simp [hji]
      · simp [hji, Ne.symm hji]

/-- When every chunk is there, they make up a prefix of the text. -/
theorem reassembled_pieces (chunks : UInt32) (stateJson : List UInt8) (width : Nat)
    (h : ∀ i < chunks, r.receivedChunks[i]? = some (stateJson.piece width i.toNat)) :
    r.reassembled chunks = some (stateJson.take (chunks.toNat * width)) := by
  have hpieces : (indices chunks).map (fun i => stateJson.piece width i.toNat) =
      (List.range chunks.toNat).map (stateJson.piece width) := by
    unfold indices
    rw [List.map_map]
    refine List.map_congr_left fun i hi => ?_
    have hsize := chunks.toNat_lt
    have hlt := List.mem_range.mp hi
    have hnat : (UInt32.ofNat i).toNat = i := by
      rw [UInt32.toNat_ofNat']
      omega
    rw [Function.comp_apply, hnat]
  unfold reassembled
  rw [List.mapM_congr_left fun i hi => h i (mem_indices.mp hi),
    ← List.flatten_pieces, ← hpieces]
  exact congrArg (Option.map List.flatten)
    (List.mapM_pure (m := Option) (f := fun i : UInt32 => stateJson.piece width i.toNat))

/-- What is read from the text of a state, and when. -/
theorem readState_eq_ok [HexCrate] {s s' : Full} :
    readState J (J.encode (s.map Decimal.toStringTrimmed hexEncode)) = .ok (.ok s') ↔
      s.validate = .ok (.ok ()) ∧ (∀ d ∈ s.decimals, d.FitsOn Decimal.priceDecimals) ∧
        s' = s.map (·.onPlaces Decimal.priceDecimals) id := by
  unfold readState
  rw [J.decode_encode, Option.bind_some, PersistedState.ofText_map]
  by_cases hfits : ∀ d ∈ s.decimals, d.FitsOn Decimal.priceDecimals
  · simp only [if_pos hfits, PersistedState.validate_map]
    cases s.validate with
    | error e => simp
    | ok v =>
      cases v with
      | error e => simp
      | ok u =>
        simp only [ok_bind, pure_eq_ok, Except.ok.injEq, true_and]
        exact ⟨fun h => ⟨hfits, h.symm⟩, fun h => h.2.symm⟩
  · simp [hfits]

end SnapshotRestore

/-! ### Transfers -/

section Transfer

variable [DecidableEq Hash]

/-- A node can use a snapshot of `s` that it is offered by a manager. -/
structure Transfers [HexCrate] (J : Codec Text (List UInt8)) (H : List UInt8 → Hash)
    (m : SnapshotManager Hash) (metadata : SnapshotMetadata Hash) (s : Full) : Prop where
  /-- Each chunk of the number that is offered is served, -/
  served : ∀ i < metadata.chunks, ∃ chunk, m.loadChunk metadata.height i = .ok (.ok chunk)
  /-- and no other. -/
  refused : ∀ i ≥ metadata.chunks, ∃ e, m.loadChunk metadata.height i = .ok (.error e)
  /-- In whatever order they are delivered, and however often, the state comes back. -/
  restored : ∀ (r : SnapshotRestore Hash) (delivered : List UInt32),
    (∀ i, i ∈ delivered ↔ i < metadata.chunks) →
      ∃ s', transfer J H m metadata delivered r = .ok (.ok s') ∧ s'.values = s.values
  /-- No node restores a state whose chunks do not hash to the hash that it was offered. -/
  checked : ∀ (r r' : SnapshotRestore Hash) (s' : Full), r.finalize J H = .ok (.ok s', r') →
    ∃ md stateJson, r.currentSnapshot = some md ∧
      r.reassembled md.chunks = some stateJson ∧ H stateJson = md.hash

/-- The number of bytes of a state's text. -/
def textLength [HexCrate] (J : Codec Text (List UInt8)) (s : Full) : Nat :=
  (J.encode (s.map Decimal.toStringTrimmed hexEncode)).length

/-- The number of chunks that a text of `n` bytes is offered with. -/
def offeredChunks (n : Nat) (chunkSize : UInt64) : Nat :=
  (n + chunkSize.toNat - 1) / chunkSize.toNat % 2 ^ 32

/-- A state can be written: its decimals' scales and absolute values are in range, and so is
the sum of the size of its text and the chunk size, which is not zero. -/
structure Creatable [HexCrate] (J : Codec Text (List UInt8)) (chunkSize : UInt64) (s : Full) :
    Prop where
  writable : ∀ d ∈ s.decimals, InRange (10 ^ d.decimals) ∧ InRange |d.value|
  small : textLength J s + chunkSize.toNat < 2 ^ 64
  pos : chunkSize ≠ 0

/-- A state comes back from chunks that were counted with one chunk size and are cut with
another: it is valid, its decimals fit eight places, and the chunks make up the text, the
last one starting in it. -/
structure Transferable [HexCrate] (J : Codec Text (List UInt8)) (counted cut : UInt64)
    (s : Full) : Prop where
  valid : s.validate = .ok (.ok ())
  fits : ∀ d ∈ s.decimals, d.FitsOn Decimal.priceDecimals
  starts : (offeredChunks (textLength J s) counted - 1) * cut.toNat ≤ textLength J s
  reaches : textLength J s ≤ offeredChunks (textLength J s) counted * cut.toNat
  small : offeredChunks (textLength J s) counted * cut.toNat < 2 ^ 64

theorem Decimal.serialize_eq_ok {d : Decimal} {text : String} : d.serialize = .ok text ↔
    (InRange (10 ^ d.decimals) ∧ InRange |d.value|) ∧ text = d.toStringTrimmed := by
  unfold Decimal.serialize Decimal.pow10
  simp only [bind_eq_ok, i128_eq_ok, Decimal.abs_eq_ok, pure_eq_ok]
  constructor
  · rintro ⟨_, ⟨hscale, -⟩, _, ⟨habs, -⟩, rfl⟩
    exact ⟨⟨hscale, habs⟩, rfl⟩
  · rintro ⟨⟨hscale, habs⟩, rfl⟩
    exact ⟨_, ⟨hscale, rfl⟩, _, ⟨habs, rfl⟩, rfl⟩

theorem PersistedState.toText_eq_ok [HexCrate] {s : Full} {text : Text} : s.toText = .ok text ↔
    (∀ d ∈ s.decimals, InRange (10 ^ d.decimals) ∧ InRange |d.value|) ∧
      text = s.map Decimal.toStringTrimmed hexEncode := by
  have hmap (ds : List Decimal) : (∃ texts, ds.mapM Decimal.serialize = .ok texts) ↔
      ∀ d ∈ ds, InRange (10 ^ d.decimals) ∧ InRange |d.value| := by
    induction ds with
    | nil => exact ⟨fun _ _ h => absurd h List.not_mem_nil, fun _ => ⟨[], rfl⟩⟩
    | cons d ds ih =>
      rw [List.forall_mem_cons, ← ih]
      simp only [mapM_cons_eq_ok, Decimal.serialize_eq_ok]
      constructor
      · rintro ⟨_, text, ⟨hd, -⟩, texts, htexts, -⟩
        exact ⟨hd, texts, htexts⟩
      · rintro ⟨hd, texts, htexts⟩
        exact ⟨_, _, ⟨hd, rfl⟩, texts, htexts, rfl⟩
  unfold PersistedState.toText
  rw [bind_eq_ok, ← hmap]
  simp only [pure_eq_ok, exists_and_right]
  exact and_congr_right fun _ => eq_comm

theorem chunkCount_eq_ok {n : Nat} {chunkSize : UInt64} {chunks : UInt32} :
    chunkCount n chunkSize = .ok chunks ↔ n + chunkSize.toNat < 2 ^ 64 ∧ chunkSize ≠ 0 ∧
      chunks = UInt32.ofNat ((n + chunkSize.toNat - 1) / chunkSize.toNat) := by
  unfold chunkCount
  rw [bind_eq_ok]
  simp only [u64_eq_ok]
  constructor
  · rintro ⟨sum, ⟨hsmall, rfl⟩, h⟩
    split at h
    · cases h
    · next hpos => exact ⟨hsmall, hpos, (pure_inv h).symm⟩
  · rintro ⟨hsmall, hpos, rfl⟩
    refine ⟨_, ⟨hsmall, rfl⟩, ?_⟩
    rw [if_neg hpos]
    rfl

/-- **Transfer.** What a node gets that has received all chunks. -/
theorem transfer_eq_ok [HexCrate] {m : SnapshotManager Hash}
    {metadata : SnapshotMetadata Hash} {s s' : Full} {delivered : List UInt32}
    {r : SnapshotRestore Hash} (hinj : Function.Injective H)
    (hget : m.snapshots[metadata.height]? = some metadata)
    (hformat : metadata.format = snapshotFormat)
    (hjson : m.jsonFiles[metadata.height]? =
      some (J.encode (s.map Decimal.toStringTrimmed hexEncode)))
    (hhash : metadata.hash = H (J.encode (s.map Decimal.toStringTrimmed hexEncode)))
    (hserved : ∀ i < metadata.chunks, ∃ chunk, m.loadChunk metadata.height i = .ok (.ok chunk))
    (hdelivered : ∀ i, i ∈ delivered ↔ i < metadata.chunks) :
    transfer J H m metadata delivered r = .ok (.ok s') ↔
      textLength J s ≤ metadata.chunks.toNat * m.chunkSize.toNat ∧
        s.validate = .ok (.ok ()) ∧ (∀ d ∈ s.decimals, d.FitsOn Decimal.priceDecimals) ∧
          s' = s.map (·.onPlaces Decimal.priceDecimals) id := by
  have hpiece (i : UInt32) (hi : i ∈ delivered) : m.loadChunk metadata.height i = .ok (.ok
      ((J.encode (s.map Decimal.toStringTrimmed hexEncode)).piece m.chunkSize.toNat i.toNat)) := by
    have hrange := (hdelivered i).mp hi
    obtain ⟨chunk, hchunk⟩ := hserved i hrange
    rw [SnapshotManager.loadChunk_eq hget hjson hrange] at hchunk ⊢
    split at hchunk
    · next hin => rw [if_pos hin]
    · cases hchunk
  have hoffer : (r.offerSnapshot metadata).2 = { currentSnapshot := some metadata } := by
    unfold SnapshotRestore.offerSnapshot
    rw [if_neg (not_not.mpr hformat)]
  obtain ⟨r₁, hdeliver, hcurrent, hreceived⟩ := SnapshotRestore.deliver_eq_ok
    (r := { currentSnapshot := some metadata }) rfl hpiece fun i hi => (hdelivered i).mp hi
  have hbytes := SnapshotRestore.reassembled_pieces (r := r₁) metadata.chunks
    (J.encode (s.map Decimal.toStringTrimmed hexEncode)) m.chunkSize.toNat
    fun i hi => by rw [hreceived, if_pos ((hdelivered i).mpr hi)]
  have htransfer : transfer J H m metadata delivered r = .ok (.ok s') ↔
      ∃ r', r₁.finalize J H = .ok (.ok s', r') := by
    unfold transfer
    rw [hoffer, hdeliver, ok_bind]
    simp only [bind_eq_ok, pure_eq_ok]
    constructor
    · rintro ⟨⟨_, r'⟩, hfinal, rfl⟩
      exact ⟨r', hfinal⟩
    · rintro ⟨r', hfinal⟩
      exact ⟨_, hfinal, rfl⟩
  rw [htransfer, SnapshotRestore.finalize_eq_ok]
  constructor
  · rintro ⟨md, stateJson, hmd, hreassembled, heq, hread⟩
    obtain rfl := Option.some.inj (hcurrent.symm.trans hmd)
    obtain rfl := Option.some.inj (hbytes.symm.trans hreassembled)
    -- no other text has this hash
    have hwhole := hinj (heq.trans hhash)
    rw [hwhole] at hread
    exact ⟨List.take_eq_self_iff _ |>.mp hwhole, SnapshotRestore.readState_eq_ok.mp hread⟩
  · rintro ⟨hreaches, hread⟩
    have hwhole := (List.take_eq_self_iff
      (J.encode (s.map Decimal.toStringTrimmed hexEncode))).mpr hreaches
    refine ⟨metadata, _, hcurrent, hbytes, ?_, ?_⟩
    · rw [hwhole, hhash]
    · rw [hwhole]
      exact SnapshotRestore.readState_eq_ok.mpr hread

open SnapshotManager (step)

omit [DecidableEq Hash] in
/-- **Creation.** When a snapshot is created. -/
theorem creates_iff [HexCrate] {m : SnapshotManager Hash} {s : Full} {height : UInt64}
    {createdAt : String} :
    (∃ metadata m', m.createSnapshot J H height (some s) createdAt = .ok (.ok metadata, m')) ↔
      Creatable J m.chunkSize s := by
  constructor
  · rintro ⟨metadata, m', hcreate⟩
    obtain ⟨_, text, chunks, hs, htext, hchunks, -, -⟩ :=
      SnapshotManager.createSnapshot_eq_ok.mp hcreate
    obtain rfl := Option.some.inj hs
    obtain ⟨hwritable, rfl⟩ := PersistedState.toText_eq_ok.mp htext
    obtain ⟨hsmall, hpos, -⟩ := chunkCount_eq_ok.mp hchunks
    exact ⟨hwritable, hsmall, hpos⟩
  · rintro ⟨hwritable, hsmall, hpos⟩
    exact ⟨_, _, SnapshotManager.createSnapshot_eq_ok.mpr ⟨s, _, _, rfl,
      PersistedState.toText_eq_ok.mpr ⟨hwritable, rfl⟩,
      chunkCount_eq_ok.mpr ⟨hsmall, hpos, rfl⟩, rfl, rfl⟩⟩

/-- **Use.** When a snapshot can be used that was created by a manager in order, and is still
listed after what was done since. -/
theorem transfers_iff [HexCrate] (hinj : Function.Injective H) {m₀ m₁ m₂ : SnapshotManager Hash}
    (hm₀ : m₀.Coherent H) {s : Full} {height : UInt64} {createdAt : String}
    {metadata : SnapshotMetadata Hash}
    (hcreate : m₀.createSnapshot J H height (some s) createdAt = .ok (.ok metadata, m₁))
    (after : Run.Reaches (step J H) (fun _ _ => True) m₁ m₂)
    (hlisted : metadata ∈ m₂.listSnapshots) :
    Transfers J H m₂ metadata s ↔ Transferable J m₀.chunkSize m₂.chunkSize s := by
  have hstep : step J H (.create height (some s) createdAt) m₀ = .ok m₁ :=
    map_eq_ok.mpr ⟨_, hcreate, rfl⟩
  have hm₁ : m₁.Coherent H := hm₀.step hstep
  have hm₂ : m₂.Coherent H := hm₁.run after
  have hget := hm₂.of_listed hlisted
  obtain ⟨-, hformat, stateJson, hjson, hhash⟩ := hm₂.filed _ _ hget
  obtain ⟨_, text, chunks, hs, htext, hchunks, hmetadata, -⟩ :=
    SnapshotManager.createSnapshot_eq_ok.mp hcreate
  obtain rfl := Option.some.inj hs
  obtain ⟨hwritable, rfl⟩ := PersistedState.toText_eq_ok.mp htext
  obtain ⟨hsmall, hpos, hcount⟩ := chunkCount_eq_ok.mp hchunks
  have hoffered : metadata.hash = H (J.encode (s.map Decimal.toStringTrimmed hexEncode)) := by
    rw [hmetadata]
  -- the file still is the text of the state, since its hash is the same
  obtain rfl := hinj (hhash.symm.trans hoffered)
  have hn : metadata.chunks.toNat = offeredChunks (textLength J s) m₀.chunkSize := by
    rw [hmetadata]
    exact (congrArg UInt32.toNat hcount).trans (UInt32.toNat_ofNat' ..)
  have hserved := SnapshotManager.served_iff hget hjson
  constructor
  · intro h
    obtain ⟨hstarts, hcut⟩ := hserved.mp h.served
    obtain ⟨s', hs', -⟩ := h.restored {} (SnapshotRestore.indices metadata.chunks)
      fun i => SnapshotRestore.mem_indices
    obtain ⟨hreaches, hvalid, hfits, -⟩ := (transfer_eq_ok hinj hget hformat hjson hoffered
      h.served fun i => SnapshotRestore.mem_indices).mp hs'
    rw [hn] at hstarts hcut hreaches
    exact ⟨hvalid, hfits, hstarts, hreaches, hcut⟩
  · rintro ⟨hvalid, hfits, hstarts, hreaches, hcut⟩
    rw [← hn] at hstarts hcut hreaches
    have hall := hserved.mpr ⟨hstarts, hcut⟩
    refine ⟨hall, fun i hi => SnapshotManager.loadChunk_out_of_range hget hi, ?_, ?_⟩
    · intro r delivered hdelivered
      exact ⟨_, (transfer_eq_ok hinj hget hformat hjson hoffered hall hdelivered).mpr
        ⟨hreaches, hvalid, hfits, rfl⟩, PersistedState.values_onPlaces hfits⟩
    · intro r r' s' hfinal
      obtain ⟨md, stateJson, hmd, hbytes, heq, -⟩ :=
        SnapshotRestore.finalize_eq_ok.mp ⟨r', hfinal⟩
      exact ⟨md, stateJson, hmd, hbytes, heq⟩

/-- **State sync.** A snapshot is created of every state that can be written, and a node to
which a manager offers it later can use it exactly when the state is valid, its decimals fit
eight places, and the chunk size of then cuts the number of chunks that was counted. -/
theorem snapshot_transfers_iff [HexCrate] (hinj : Function.Injective H) {m₀ : SnapshotManager Hash}
    (before : Run.Reaches (step J H) (fun _ _ => True) {} m₀) (s : Full) (height : UInt64)
    (createdAt : String) :
    ((∃ metadata m₁, m₀.createSnapshot J H height (some s) createdAt = .ok (.ok metadata, m₁)) ↔
        Creatable J m₀.chunkSize s) ∧
      ∀ metadata m₁ m₂,
        m₀.createSnapshot J H height (some s) createdAt = .ok (.ok metadata, m₁) →
        Run.Reaches (step J H) (fun _ _ => True) m₁ m₂ → metadata ∈ m₂.listSnapshots →
          (Transfers J H m₂ metadata s ↔ Transferable J m₀.chunkSize m₂.chunkSize s) :=
  ⟨creates_iff, fun _ _ _ hcreate after hlisted =>
    transfers_iff hinj (SnapshotManager.Coherent.empty.run before) hcreate after hlisted⟩

end Transfer

/-- A rate on ten places is written with all of them, and then not read. -/
example : ¬ (⟨1, Decimal.rateDecimals⟩ : Decimal).FitsOn Decimal.priceDecimals := by decide

/-! ### A first snapshot

A state at height 1 with nothing in it, its text, and the SHA-256 of that text. -/

def firstState : Full := { height := 1 }

def firstText : List UInt8 :=
  [ "\x7b\"schema_version\":2,\"height\":1,\"timestamp\":0,",
    "\"app_hash\":[0,0,0,0,0,0,0,0,0,0,0,0,0,0,0,0,0,0,0,0,0,0,0,0,0,0,0,0,0,0,0,0],",
    "\"core\":\x7b\"balances\":[],\"accounts\":[],\"positions\":[],\"leverage\":[],",
    "\"markets\":[],\"orders\":[],\"insurance_fund\":\"\",\"next_order_id\":0\x7d,",
    "\"spot\":\x7b\"tokens\":[],\"markets\":[],\"reserved\":[],\"orders\":[],",
    "\"next_token_index\":0,\"next_market_id\":0,\"next_order_id\":0\x7d,",
    "\"evm\":\x7b\"accounts\":[],\"storage\":[],\"code\":[],\"block_hashes\":[]\x7d,",
    "\"chain\":\x7b\"nonces\":[],\"blocks\":[],\"cloid_index\":[]\x7d,",
    "\"perp\":\x7b\"positions\":[],\"leverage\":[],\"markets\":[],\"orders\":[],",
    "\"next_order_id\":0,\"insurance_fund\":\"\"\x7d\x7d" ].flatMap utf8Bytes

def firstDigest : List UInt8 :=
  [5, 218, 220, 127, 132, 241, 193, 187, 104, 98, 183, 215, 3, 193, 246, 136,
    0, 226, 55, 208, 177, 5, 166, 37, 238, 18, 101, 18, 224, 125, 232, 160]

theorem length_firstText : firstText.length = 584 := by decide +kernel

/-- JSON, as far as the first state is concerned. -/
noncomputable def firstCodec : Codec Text (List UInt8) :=
  (Codec.ofCountable 0).through (firstState.map Decimal.toStringTrimmed hexEncode) firstText

/-- SHA-256, as far as the first state is concerned. -/
abbrev firstHash : List UInt8 → List UInt8 := hashThrough firstText firstDigest

theorem firstHash_injective : Function.Injective firstHash := hashThrough_injective (by decide)

theorem encode_firstState :
    firstCodec.encode (firstState.map Decimal.toStringTrimmed hexEncode) = firstText :=
  Codec.through_encode ..

def firstMetadata : SnapshotMetadata (List UInt8) :=
  ⟨1, snapshotFormat, 6, firstDigest, "\x7b\"created_at\":\"2026-01-01T00:00:00+00:00\"\x7d"⟩

/-- A manager that cuts chunks of 100 bytes, with a snapshot of the first state. -/
def firstManager : SnapshotManager (List UInt8) where
  chunkSize := 100
  snapshots := (∅ : FinMap _ _).insert 1 firstMetadata
  jsonFiles := (∅ : FinMap _ _).insert 1 firstText
  metaFiles := (∅ : FinMap _ _).insert 1 firstMetadata

theorem firstManager_created :
    (SnapshotManager.withChunkSize {} 100).createSnapshot firstCodec firstHash 1 (some firstState)
      firstMetadata.metadata = .ok (.ok firstMetadata, firstManager) := by
  have hdigest : firstHash firstText = firstDigest := if_pos rfl
  refine SnapshotManager.createSnapshot_eq_ok.mpr ⟨firstState, _, 6, rfl,
    PersistedState.toText_eq_ok.mpr ⟨by decide, rfl⟩, ?_, ?_, ?_⟩
  · rw [encode_firstState, chunkCount_eq_ok, length_firstText]
    decide
  · rw [encode_firstState, hdigest]
    rfl
  · rw [encode_firstState]
    rfl

theorem firstManager_coherent : firstManager.Coherent firstHash :=
  (SnapshotManager.Coherent.empty (H := firstHash)).run
    ((Run.Reaches.refl.tail (.withChunkSize 100) trivial rfl).tail
      (.create 1 (some firstState) firstMetadata.metadata) trivial
      (map_eq_ok.mpr ⟨_, firstManager_created, rfl⟩))

theorem firstManager_listed :
    firstMetadata ∈ (firstManager.reopen .sorted).listSnapshots := by
  have hlist : firstManager.listSnapshots = [firstMetadata] := rfl
  have hreopen : (firstManager.reopen .sorted).listSnapshots = firstManager.listSnapshots := by
    unfold SnapshotManager.listSnapshots
    rw [firstManager_coherent.reopen_snapshots]
  rw [hreopen, hlist]
  exact List.mem_singleton_self _

theorem textLength_firstState : textLength firstCodec firstState = 584 := by
  unfold textLength
  rw [encode_firstState, length_firstText]

/-- Reopened with the same chunk size, the manager still serves its snapshot. -/
theorem reopened_manager_transfers :
    Transfers firstCodec firstHash ((firstManager.reopen .sorted).withChunkSize 100) firstMetadata
      firstState := by
  have before : Run.Reaches (SnapshotManager.step firstCodec firstHash) (fun _ _ => True) {}
      (SnapshotManager.withChunkSize {} 100) :=
    Run.Reaches.refl.tail (.withChunkSize 100) trivial rfl
  have after : Run.Reaches (SnapshotManager.step firstCodec firstHash) (fun _ _ => True)
      firstManager ((firstManager.reopen .sorted).withChunkSize 100) :=
    (Run.Reaches.refl.tail (.reopen .sorted) trivial rfl).tail (.withChunkSize 100) trivial rfl
  refine ((snapshot_transfers_iff firstHash_injective before firstState 1 firstMetadata.metadata).2
    _ _ _ firstManager_created after firstManager_listed).mpr ⟨rfl, by decide, ?_, ?_, ?_⟩
  all_goals
    rw [textLength_firstState]
    decide

/-- Reopened with the default chunk size, it panics on the second of the six chunks that it
offers. -/
theorem reopened_manager_panics :
    firstState.validate = .ok (.ok ()) ∧ firstMetadata.chunks = 6 ∧
      (SnapshotManager.withChunkSize {} 100).createSnapshot firstCodec firstHash 1
        (some firstState) firstMetadata.metadata = .ok (.ok firstMetadata, firstManager) ∧
      firstMetadata ∈ (firstManager.reopen .sorted).listSnapshots ∧
      (firstManager.reopen .sorted).loadChunk 1 1 = .error .panic ∧
      ¬ Transfers firstCodec firstHash (firstManager.reopen .sorted) firstMetadata firstState := by
  have hjson : (firstManager.reopen .sorted).jsonFiles[(1 : UInt64)]? = some firstText := rfl
  have hget : (firstManager.reopen .sorted).snapshots[(1 : UInt64)]? = some firstMetadata := by
    rw [firstManager_coherent.reopen_snapshots]
    rfl
  have hpanic : (firstManager.reopen .sorted).loadChunk 1 1 = .error .panic := by
    rw [SnapshotManager.loadChunk_eq hget hjson (by decide), length_firstText]
    rfl
  refine ⟨rfl, rfl, firstManager_created, firstManager_listed, hpanic, fun h => ?_⟩
  obtain ⟨chunk, hchunk⟩ := h.served 1 (by decide)
  have hheight : firstMetadata.height = 1 := rfl
  rw [hheight, hpanic] at hchunk
  cases hchunk

end Hypercore
