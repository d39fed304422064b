import Hypercore.Chain.Mempool
import Hypercore.Chain.Run
/-!
# Hypercore.Chain.BlockProducer

Block production by a single node: one block at a time, and in a pipeline.

Both producers execute a batch in the same way. The pipelined one runs two tasks: the
collector drains the incoming queue, takes a batch of pending transactions and sends it over
a channel, while the execution loop receives a batch, executes it and only then clears its
transactions from the mempool. A step of the model is one of these, or a submission; the
tasks take them in any order.

What is left out: the log and the durations, the halt flag, and what `produce_block` does
after the commit with its handlers and attestations.
-/

namespace Hypercore

open Exec

/-- What execution reads of a transaction of the pool. -/
def SignedTx.transaction {α : Type} (action : α → TransactionType) (tx : SignedTx α) :
    Transaction := ⟨action tx.action, tx.nonce.toNat, tx.signer⟩

/-- Result of block production. -/
structure BlockResult where
  height : BlockHeight
  timestamp : Timestamp
  appHash : AppHash
  txCount : Nat
  succeeded : Nat
  failed : Nat
  deriving DecidableEq, Repr

/-- A block, with the batch it was made of and the application after it. -/
structure ProducedBlock (α : Type) where
  txs : List (SignedTx α)
  result : BlockResult
  app : AppState

/-- What a producer is built with: Keccak-256, the serializer of actions, what execution reads
of an action, the kind of build and the most transactions of a block. -/
structure ProducerParts (α : Type) where
  keccak256 : List UInt8 → Bytes32
  actionJson : α → List UInt8
  action : α → TransactionType
  overflow : Overflow
  maxTxsPerBlock : Nat

namespace ProducerParts

variable {α : Type} (P : ProducerParts α)

/-- The hash of a transaction. -/
def hash (tx : SignedTx α) : TxHash := tx.computeHash P.keccak256 P.actionJson

/-- Drain the incoming queue. -/
def drain (clock : Nat → Instant) (m : SharedMempool α) : Exec (SharedMempool α) :=
  m.drainIntoIndexed P.keccak256 P.actionJson P.overflow clock

/-- Clear transactions from the mempool. -/
def clear (txs : List (SignedTx α)) (m : SharedMempool α) : SharedMempool α :=
  { m with inner := m.inner.removeAll (txs.map P.hash) }

/-- Execute transactions one after the other, counting those that succeed and those that
fail. After one that fails the next is executed all the same. -/
def executeTxs (timestamp : Timestamp) :
    List (SignedTx α) → Nat → Nat → AppState → Exec ((Nat × Nat) × AppState)
  | [], succeeded, failed, app => return ((succeeded, failed), app)
  | tx :: rest, succeeded, failed, app => do
    let (result, app) ← app.executeTx (tx.transaction P.action) timestamp
    match result with
    | .ok _ => executeTxs timestamp rest (succeeded + 1) failed app
    | .error _ => executeTxs timestamp rest succeeded (failed + 1) app

/-- Execute a batch as the next block and commit it. -/
def executeBatch (timestamp : Timestamp) (ord : HashOrder) (txs : List (SignedTx α))
    (app : AppState) : Exec (ProducedBlock α) := do
  let height := app.height + 1
  let ((succeeded, failed), app) ← P.executeTxs timestamp txs 0 0 (app.beginBlock height timestamp)
  let app ← AppState.finishBlock ord app
  return { txs, result := ⟨height, timestamp, app.appHash, txs.length, succeeded, failed⟩, app }

end ProducerParts

/-! ### One block at a time -/

/-- The node of a `BlockProducer`, with the blocks it produced and what was submitted. -/
structure BlockProducer (α : Type) where
  app : AppState
  mempool : SharedMempool α
  blocks : List (ProducedBlock α)
  submitted : List (SignedTx α)

/-- Submissions and blocks. A block has the readings of the monotonic clock, its timestamp,
and the orders in which hash maps are visited. -/
inductive ProducerCall (α : Type)
  | submit (tx : SignedTx α)
  | block (clock : Nat → Instant) (ord : HashOrder) (timestamp : Timestamp) (endOrd : HashOrder)

namespace BlockProducer

variable {α : Type} (P : ProducerParts α)

/-- A producer over an application, its mempool empty. -/
def new (app : AppState) (config : MempoolConfig) : BlockProducer α :=
  ⟨app, ⟨.withConfig config, []⟩, [], []⟩

/-- Produce a single block. -/
def produceBlock (clock : Nat → Instant) (ord : HashOrder) (timestamp : Timestamp)
    (endOrd : HashOrder) (b : BlockProducer α) : Exec (BlockProducer α) := do
  let mempool ← P.drain clock b.mempool
  let txs := mempool.inner.getPending ord P.maxTxsPerBlock
  let block ← P.executeBatch timestamp endOrd txs b.app
  return { b with
    app := block.app
    mempool := P.clear txs mempool
    blocks := b.blocks ++ [block] }

/-- One submission or block. -/
def step : ProducerCall α → BlockProducer α → Exec (BlockProducer α)
  | .submit tx, b =>
    return { b with mempool := b.mempool.push tx, submitted := b.submitted ++ [tx] }
  | .block clock ord timestamp endOrd, b => b.produceBlock P clock ord timestamp endOrd

/-- What a producer reaches in any run. -/
def Reachable (app : AppState) (config : MempoolConfig) (b : BlockProducer α) : Prop :=
  Run.Reaches (step P) (fun _ _ => True) (new app config) b

end BlockProducer

/-! ### The pipeline -/

/-- Where the collector is in its round. -/
inductive Collector (α : Type)
  | idle
  /-- The queue is drained, and the batch not yet taken. -/
  | drained
  | holding (txs : List (SignedTx α))

/-- Where the execution loop is. -/
inductive Executor (α : Type)
  | waiting
  | received (txs : List (SignedTx α))
  /-- The block is committed, and these hashes are still to be removed from the mempool. -/
  | clearing (hashes : List TxHash)

/-- The node of a `PipelinedBlockProducer`, with the blocks it produced and what was
submitted. -/
structure Pipeline (α : Type) where
  app : AppState
  mempool : SharedMempool α
  collector : Collector α
  channel : List (List (SignedTx α))
  executor : Executor α
  pipelineDepth : Nat
  blocks : List (ProducedBlock α)
  submitted : List (SignedTx α)

/-- Steps of the collector and of the execution loop, and submissions. -/
inductive PipelineStep (α : Type)
  | submit (tx : SignedTx α)
  | drain (clock : Nat → Instant)
  | getPending (ord : HashOrder)
  | send
  | receive
  | execute (timestamp : Timestamp) (ord : HashOrder)
  | clear

namespace Pipeline

variable {α : Type} (P : ProducerParts α)

/-- A pipeline over an application, its mempool empty. -/
def new (app : AppState) (config : MempoolConfig) (pipelineDepth : Nat) : Pipeline α :=
  ⟨app, ⟨.withConfig config, []⟩, .idle, [], .waiting, max pipelineDepth 1, [], []⟩

/-- One step. A task whose step it is not waits. -/
def step : PipelineStep α → Pipeline α → Exec (Pipeline α)
  | .submit tx, s =>
    return { s with mempool := s.mempool.push tx, submitted := s.submitted ++ [tx] }
  | .drain clock, s =>
    match s.collector with
    | .idle => return { s with mempool := ← P.drain clock s.mempool, collector := .drained }
    | _ => return s
  | .getPending ord, s =>
    match s.collector with
    | .drained =>
      return { s with collector := .holding (s.mempool.inner.getPending ord P.maxTxsPerBlock) }
    | _ => return s
  | .send, s =>
    match s.collector with
    | .holding txs =>
      if s.channel.length < s.pipelineDepth then
        return { s with collector := .idle, channel := s.channel ++ [txs] }
      else return s
    | _ => return s
  | .receive, s =>
    match s.executor, s.channel with
    | .waiting, txs :: channel => return { s with executor := .received txs, channel }
    | _, _ => return s
  | .execute timestamp ord, s =>
    match s.executor with
    | .received txs => do
      let block ← P.executeBatch timestamp ord txs s.app
      return { s with
        app := block.app
        executor := .clearing (txs.map P.hash)
        blocks := s.blocks ++ [block] }
    | _ => return s
  | .clear, s =>
    match s.executor with
    | .clearing [] => return { s with executor := .waiting }
    | .clearing (hash :: hashes) =>
      return { s with mempool := s.mempool.remove hash, executor := .clearing hashes }
    | _ => return s

/-- The batch that the collector holds. -/
def held (s : Pipeline α) : List (List (SignedTx α)) :=
  match s.collector with
  | .holding txs => [txs]
  | _ => []

/-- The batch that the execution loop received. -/
def receivedBatch (s : Pipeline α) : List (List (SignedTx α)) :=
  match s.executor with
  | .received txs => [txs]
  | _ => []

/-- The batches that were collected and are not executed, oldest first. -/
def collected (s : Pipeline α) : List (List (SignedTx α)) :=
  s.receivedBatch ++ s.channel ++ s.held

/-- The hashes of a block that are still to be removed. -/
def uncleared (s : Pipeline α) : List TxHash :=
  match s.executor with
  | .clearing hashes => hashes
  | _ => []

/-- The hashes in flight: those of batches that were collected and are not yet cleared from
the mempool, oldest first. -/
def inFlight (s : Pipeline α) : List TxHash :=
  s.uncleared ++ s.collected.flatten.map P.hash

/-- The collector is not disturbed by what is in flight: it takes a batch when nothing is, and
a drain does to the pool what it would do to the pool without it. -/
def Undisturbed (s : Pipeline α) : PipelineStep α → Prop
  | .drain clock => s.collector = .idle → ∀ m, P.drain clock s.mempool = .ok m →
    P.drain clock { s.mempool with inner := s.mempool.inner.removeAll (s.inFlight P) } =
      .ok { m with inner := m.inner.removeAll (s.inFlight P) }
  | .getPending _ => s.collector = .drained → s.inFlight P = []
  | _ => True

end Pipeline

/-! ### The mempool's side of a run -/

/-- The mempool of a producer of single blocks, with the batches taken from it and what was
submitted. -/
structure Feed (α : Type) where
  mempool : SharedMempool α
  batches : List (List (SignedTx α))
  submitted : List (SignedTx α)

/-- Submissions, and rounds that take a batch and clear it. -/
inductive FeedCall (α : Type)
  | submit (tx : SignedTx α)
  | round (clock : Nat → Instant) (ord : HashOrder)

/-- Blocks that were executed one after the other, and the application after them. -/
inductive BlocksExecuted {α : Type} (P : ProducerParts α) (app : AppState) :
    List (ProducedBlock α) → AppState → Prop
  | nil : BlocksExecuted P app [] app
  | snoc {blocks : List (ProducedBlock α)} {a : AppState} {block : ProducedBlock α}
      {txs : List (SignedTx α)} (timestamp : Timestamp) (ord : HashOrder)
      (before : BlocksExecuted P app blocks a)
      (run : P.executeBatch timestamp ord txs a = .ok block) :
      BlocksExecuted P app (blocks ++ [block]) block.app

variable {timestamp : Timestamp} {ord : HashOrder}

theorem ProducerParts.executeBatch_txs {α : Type} {P : ProducerParts α} {txs : List (SignedTx α)}
    {app : AppState} {block : ProducedBlock α}
    (h : P.executeBatch timestamp ord txs app = .ok block) : block.txs = txs := by
  unfold ProducerParts.executeBatch at h
  obtain ⟨⟨counts, ran⟩, -, h⟩ := bind_inv h
  obtain ⟨ended, -, h⟩ := bind_inv h
  obtain rfl := pure_inv h
  rfl

/-! #### Heights -/

namespace AppState

variable {s s' : AppState} {t : Timestamp}

theorem applyEffect_height {sender : AccountAddress} {i : Effect}
    (h : applyEffect sender i s = .ok s') : s'.height = s.height :=
  applyEffect_keeps (fun _ _ _ _ _ => rfl) (fun _ _ _ _ _ => rfl) h

/-- A transaction does not move the height. -/
theorem executeTx_height {tx : Transaction} {r : Except AppError TxResult}
    (h : s.executeTx tx t = .ok (r, s')) : s'.height = s.height := by
  have haction : ∀ {a action ra s₁}, s.executeAction a t action = .ok (ra, s₁) →
      s₁.height = s.height := fun hact =>
    (executeAction_run hact).invariant (P := fun u => u.height = s.height) rfl
      fun _ _ _ hu _ hi => (applyEffect_height hi).trans hu
  obtain ⟨rfl, -⟩ | ⟨a, ra, s₁, -, -, hact, ⟨e, -, -, rfl⟩ | ⟨events, s₂, -, -, hi, rfl⟩⟩ :=
    executeTx_cases h
  · rfl
  · exact haction hact
  · have hsame := haction hact
    obtain ⟨next, -, hi⟩ := bind_inv hi
    cases pure_inv hi
    unfold updateTimestampNonce
    split <;> exact hsame

theorem finishBlock_height {ord : HashOrder} (h : finishBlock ord s = .ok s') :
    s'.height = s.height := by
  obtain ⟨⟨events, s₁⟩, hu, h⟩ := bind_inv h
  cases pure_inv h
  unfold upkeep at hu
  split at hu
  · cases pure_inv hu
    rfl
  · obtain ⟨⟨rates, e₁⟩, -, hu⟩ := bind_inv hu
    obtain ⟨⟨done, e₂⟩, -, hu⟩ := bind_inv hu
    cases pure_inv hu
    rfl

end AppState

theorem ProducerParts.executeTxs_height {α : Type} {P : ProducerParts α} {txs : List (SignedTx α)}
    {succeeded failed : Nat} {app app' : AppState} {counts : Nat × Nat}
    (h : P.executeTxs timestamp txs succeeded failed app = .ok (counts, app')) :
    app'.height = app.height := by
  induction txs generalizing succeeded failed app with
  | nil =>
    obtain ⟨-, rfl⟩ := pair_inv h
    rfl
  | cons tx txs ih =>
    obtain ⟨⟨result, a⟩, htx, h⟩ := bind_inv h
    cases result with
    | ok _ => exact (ih h).trans (AppState.executeTx_height htx)
    | error _ => exact (ih h).trans (AppState.executeTx_height htx)

/-- A batch makes the next block. -/
theorem ProducerParts.executeBatch_height {α : Type} {P : ProducerParts α} {txs : List (SignedTx α)}
    {app : AppState} {block : ProducedBlock α}
    (h : P.executeBatch timestamp ord txs app = .ok block) :
    block.app.height = app.height + 1 := by
  obtain ⟨⟨counts, ran⟩, hran, h⟩ := bind_inv h
  obtain ⟨ended, hended, h⟩ := bind_inv h
  obtain rfl := pure_inv h
  exact (AppState.finishBlock_height hended).trans (executeTxs_height hran)

/-- The application is as many blocks high as were executed. -/
theorem BlocksExecuted.height {α : Type} {P : ProducerParts α} {app a : AppState}
    {blocks : List (ProducedBlock α)} (h : BlocksExecuted P app blocks a) :
    a.height = app.height + blocks.length := by
  induction h with
  | nil => rfl
  | snoc timestamp ord _ run ih =>
    rw [ProducerParts.executeBatch_height run, ih, List.length_append, List.length_singleton]
    rfl

namespace Feed

variable {α : Type} (P : ProducerParts α)

/-- An empty mempool. -/
def new (config : MempoolConfig) : Feed α := ⟨⟨.withConfig config, []⟩, [], []⟩

/-- One submission or round. -/
def step : FeedCall α → Feed α → Exec (Feed α)
  | .submit tx, f =>
    return { f with mempool := f.mempool.push tx, submitted := f.submitted ++ [tx] }
  | .round clock ord, f => do
    let mempool ← P.drain clock f.mempool
    let txs := mempool.inner.getPending ord P.maxTxsPerBlock
    return { f with mempool := P.clear txs mempool, batches := f.batches ++ [txs] }

/-- What the mempool reaches in any run. -/
def Reachable (config : MempoolConfig) (f : Feed α) : Prop :=
  Run.Reaches (step P) (fun _ _ => True) (new config) f

variable {P} {config : MempoolConfig} {f : Feed α} {app a : AppState}

/-- Several submissions. -/
theorem Reachable.submitAll (hf : Reachable P config f) (txs : List (SignedTx α)) :
    Reachable P config
      ⟨{ f.mempool with incoming := f.mempool.incoming ++ txs }, f.batches,
        f.submitted ++ txs⟩ := by
  induction txs generalizing f with
  | nil =>
    rw [List.append_nil, List.append_nil]
    exact hf
  | cons tx txs ih =>
    have hone := ih (hf.tail (.submit tx) trivial rfl)
    simp only [SharedMempool.push, List.append_assoc, List.singleton_append] at hone
    exact hone

/-- **Blocks over a run of the mempool.** Blocks executed from the first batches are those of
a producer with the same submissions. -/
theorem Reachable.blocks (hf : Reachable P config f) {blocks : List (ProducedBlock α)}
    {rest : List (List (SignedTx α))} (hexec : BlocksExecuted P app blocks a)
    (hbatches : f.batches = blocks.map (·.txs) ++ rest) :
    ∃ b, BlockProducer.Reachable P app config b ∧ b.blocks = blocks ∧ b.app = a ∧
      b.submitted = f.submitted ∧ (rest = [] → b.mempool = f.mempool) := by
  induction hf generalizing blocks a rest with
  | refl =>
    cases hexec with
    | nil => exact ⟨.new app config, .refl, rfl, rfl, rfl, fun _ => rfl⟩
    | snoc => simp [Feed.new] at hbatches
  | @tail f f' call _ _ hs ih =>
    cases call with
    | submit tx =>
      obtain rfl := pure_inv hs
      obtain ⟨b, hb, hblocks, happ, hsubmitted, hmempool⟩ := ih hexec hbatches
      refine ⟨_, hb.tail (.submit tx) trivial rfl, hblocks, happ, ?_, fun hrest => ?_⟩
      · rw [hsubmitted]
      · rw [hmempool hrest]
    | round clock ord =>
      obtain ⟨m, hm, hs⟩ := bind_inv hs
      obtain rfl := pure_inv hs
      dsimp only at hbatches
      rcases List.eq_nil_or_concat rest with rfl | ⟨rest', last, rfl⟩
      · -- the round's batch is that of the last block
        rw [List.append_nil] at hbatches
        cases hexec with
        | nil => simp at hbatches
        | @snoc blocks a block txs timestamp endOrd before run =>
          rw [List.map_append, List.map_singleton] at hbatches
          obtain ⟨hold, hlast⟩ := List.append_inj' hbatches rfl
          have htxs := (List.cons.inj hlast).1.trans (ProducerParts.executeBatch_txs run)
          obtain ⟨b, hb, hblocks, rfl, hsubmitted, hmempool⟩ :=
            ih before (hold.trans (List.append_nil _).symm)
          refine ⟨_, hb.tail (.block clock ord timestamp endOrd) trivial
            (bind_eq_ok.mpr ⟨m, by rw [hmempool rfl]; exact hm,
              bind_eq_ok.mpr ⟨block, by rw [htxs]; exact run, rfl⟩⟩), ?_, rfl, hsubmitted,
            fun _ => rfl⟩
          rw [hblocks]
      · rw [List.concat_eq_append, ← List.append_assoc] at hbatches
        obtain ⟨hold, -⟩ := List.append_inj' hbatches rfl
        obtain ⟨b, hb, hblocks, happ, hsubmitted, -⟩ := ih hexec hold
        exact ⟨b, hb, hblocks, happ, hsubmitted, fun h => absurd h (by simp)⟩

/-! #### No transaction is taken twice -/

variable [DecidableEq α]

/-- What the run lemma carries: a transaction that was taken, waits in the queue or is stored
was submitted for that. -/
structure Accounted (P : ProducerParts α) (f : Feed α) : Prop where
  filed : f.mempool.inner.Filed P.keccak256 P.actionJson
  counted : ∀ tx, f.batches.flatten.count tx + f.mempool.incoming.count tx +
    f.mempool.inner.stored.count tx ≤ f.submitted.count tx

theorem Accounted.round (h : Accounted P f) {clock : Nat → Instant} {m : SharedMempool α}
    (hm : P.drain clock f.mempool = .ok m) (ord : HashOrder) :
    Accounted P
      ⟨P.clear (m.inner.getPending ord P.maxTxsPerBlock) m,
        f.batches ++ [m.inner.getPending ord P.maxTxsPerBlock], f.submitted⟩ := by
  obtain ⟨pool, hpool, hm⟩ := bind_inv hm
  obtain rfl := pure_inv hm
  obtain ⟨hfiled, hqueue⟩ := h.filed.addQueue hpool
  obtain ⟨hnodup, hsub⟩ := hfiled.getPending_batch ord P.maxTxsPerBlock
  refine ⟨hfiled.removeAll _, fun tx => ?_⟩
  have hbefore := h.counted tx
  simp only [List.flatten_append, List.flatten_singleton, List.count_append, ProducerParts.clear,
    List.count_nil]
  -- a stored transaction was waiting or stored before
  have hdrained : pool.stored.count tx ≤
      f.mempool.incoming.count tx + f.mempool.inner.stored.count tx := by
    by_cases hmem : tx ∈ pool.stored
    · rw [List.count_eq_one_of_mem hfiled.nodup_stored hmem]
      rcases hqueue tx hmem with hmem | hmem
      · have hpos := List.count_pos_iff.mpr hmem
        omega
      · have hpos := List.count_pos_iff.mpr hmem
        omega
    · rw [List.count_eq_zero_of_not_mem hmem]
      exact Nat.zero_le _
  -- one that is in the batch was stored, and is stored no longer
  have hcleared : (pool.getPending ord P.maxTxsPerBlock).count tx +
      (pool.removeAll ((pool.getPending ord P.maxTxsPerBlock).map P.hash)).stored.count tx ≤
        pool.stored.count tx := by
    by_cases hmem : tx ∈ pool.getPending ord P.maxTxsPerBlock
    · rw [List.count_eq_one_of_mem hnodup hmem,
        List.count_eq_one_of_mem hfiled.nodup_stored (hsub tx hmem), List.count_eq_zero_of_not_mem]
      intro hleft
      exact (hfiled.mem_stored_removeAll hleft).2 (List.mem_map.mpr ⟨tx, hmem, rfl⟩)
    · rw [List.count_eq_zero_of_not_mem hmem, Nat.zero_add]
      by_cases hleft : tx ∈ (pool.removeAll
          ((pool.getPending ord P.maxTxsPerBlock).map P.hash)).stored
      · have hstored := (hfiled.mem_stored_removeAll hleft).1
        rw [List.count_eq_one_of_mem (hfiled.removeAll _).nodup_stored hleft,
          List.count_eq_one_of_mem hfiled.nodup_stored hstored]
      · rw [List.count_eq_zero_of_not_mem hleft]
        exact Nat.zero_le _
  omega

/-- No run takes a transaction more often than it was submitted. -/
theorem Reachable.accounted (hf : Reachable P config f) : Accounted P f := by
  refine Run.Reaches.invariant hf ⟨(Mempool.withConfig_agrees config).filed, fun tx => ?_⟩ ?_
  · have hnone : tx ∉ (Mempool.withConfig config : Mempool α).stored := by
      intro hmem
      obtain ⟨h, e, he, -⟩ := Mempool.mem_stored.mp hmem
      exact absurd he (by simp [Mempool.withConfig])
    show 0 + 0 + (Mempool.withConfig config : Mempool α).stored.count tx ≤ 0
    rw [List.count_eq_zero_of_not_mem hnone]
  · intro f call f' h _ hs
    cases call with
    | submit tx =>
      obtain rfl := pure_inv hs
      refine ⟨h.filed, fun tx' => ?_⟩
      have hbefore := h.counted tx'
      simp only [SharedMempool.push, List.count_append]
      omega
    | round clock ord =>
      obtain ⟨m, hm, hs⟩ := bind_inv hs
      obtain rfl := pure_inv hs
      exact h.round hm ord

end Feed

/-! ### The pipeline follows a feed -/

namespace Pipeline

variable {α : Type} {P : ProducerParts α} {app : AppState} {config : MempoolConfig}
  {depth : Nat} {s s' : Pipeline α} {f : Feed α}

/-- The feed that a pipeline follows has the pool without what is in flight. Between the drain
and the batch the feed is one round behind: it has still to drain. -/
structure Linked (P : ProducerParts α) (s : Pipeline α) (f : Feed α) : Prop where
  behind : s.collector = .drained → s.submitted = f.submitted ++ s.mempool.incoming ∧
    ∃ clock, P.drain clock f.mempool = .ok ⟨s.mempool.inner.removeAll (s.inFlight P), []⟩
  level : s.collector ≠ .drained → f.submitted = s.submitted ∧
    f.mempool = ⟨s.mempool.inner.removeAll (s.inFlight P), s.mempool.incoming⟩

/-- What the run lemma carries: the blocks were executed in turn, and some feed had their
batches and then those in the pipeline. -/
structure Follows (P : ProducerParts α) (app : AppState) (config : MempoolConfig)
    (s : Pipeline α) : Prop where
  executed : BlocksExecuted P app s.blocks s.app
  feed : ∃ f, Feed.Reachable P config f ∧ f.batches = s.blocks.map (·.txs) ++ s.collected ∧
    Linked P s f

theorem Follows.new : Follows P app config (new app config depth) :=
  ⟨.nil, .new config, .refl, rfl, nofun, fun _ => ⟨rfl, rfl⟩⟩

theorem held_of_ne (h : ∀ txs, s.collector ≠ .holding txs) : s.held = [] := by
  unfold held
  split
  · rename_i txs hc
    exact absurd hc (h txs)
  · rfl

/-- A submission joins the queue of both. -/
theorem Follows.submit (h : Follows P app config s) (tx : SignedTx α) :
    Follows P app config
      { s with mempool := s.mempool.push tx, submitted := s.submitted ++ [tx] } := by
  obtain ⟨hexec, f, hf, hbatches, hlinked⟩ := h
  by_cases hc : s.collector = .drained
  · obtain ⟨hsubmitted, hdrain⟩ := hlinked.behind hc
    refine ⟨hexec, f, hf, hbatches, fun _ => ⟨?_, hdrain⟩, fun h => absurd hc h⟩
    show s.submitted ++ [tx] = f.submitted ++ (s.mempool.incoming ++ [tx])
    rw [hsubmitted, List.append_assoc]
  · obtain ⟨hsubmitted, hmempool⟩ := hlinked.level hc
    refine ⟨hexec, _, hf.tail (.submit tx) trivial rfl, hbatches, fun h => absurd h hc,
      fun _ => ⟨?_, ?_⟩⟩
    · show f.submitted ++ [tx] = s.submitted ++ [tx]
      rw [hsubmitted]
    · show f.mempool.push tx = _
      rw [hmempool]
      rfl

/-- An undisturbed drain does to the feed's pool what it does to the pipeline's. -/
theorem Follows.drain (h : Follows P app config s) {clock : Nat → Instant}
    (hok : Undisturbed P s (.drain clock)) (hs : step P (.drain clock) s = .ok s') :
    Follows P app config s' := by
  unfold step at hs
  dsimp only at hs
  split at hs
  · rename_i hc
    obtain ⟨hexec, f, hf, hbatches, hlinked⟩ := h
    obtain ⟨m, hm, hs⟩ := bind_inv hs
    obtain rfl := pure_inv hs
    have hundisturbed := hok hc m hm
    obtain ⟨hsubmitted, hmempool⟩ := hlinked.level (by rw [hc]; exact nofun)
    have hempty : m.incoming = [] := by
      obtain ⟨pool, -, hm⟩ := bind_inv hm
      obtain rfl := pure_inv hm
      rfl
    have hcollected : s.collected =
        collected { s with mempool := m, collector := .drained } := by
      unfold collected
      rw [held_of_ne (by rw [hc]; exact nofun)]
      rfl
    have hinFlight : s.inFlight P = inFlight P { s with mempool := m, collector := .drained } := by
      unfold inFlight
      rw [hcollected]
      rfl
    refine ⟨hexec, f, hf, ?_, fun _ => ⟨?_, clock, ?_⟩, fun h => absurd rfl h⟩
    · rw [hbatches, hcollected]
    · show s.submitted = f.submitted ++ m.incoming
      rw [hempty, List.append_nil, hsubmitted]
    · rw [hmempool, ← hinFlight]
      show P.drain clock _ = .ok ⟨m.inner.removeAll _, []⟩
      rw [hundisturbed, hempty]
  · obtain rfl := pure_inv hs
    exact h

/-- With nothing in flight the feed takes the batch that the collector takes. -/
theorem Follows.getPending (h : Follows P app config s) {ord : HashOrder}
    (hok : Undisturbed P s (.getPending ord)) (hs : step P (.getPending ord) s = .ok s') :
    Follows P app config s' := by
  unfold step at hs
  dsimp only at hs
  split at hs
  · rename_i hc
    obtain ⟨hexec, f, hf, hbatches, hlinked⟩ := h
    obtain rfl := pure_inv hs
    have hclear := hok hc
    obtain ⟨hsubmitted, clock, hdrain⟩ := hlinked.behind hc
    rw [hclear] at hdrain
    have hround : Feed.Reachable P config
        ⟨P.clear (s.mempool.inner.getPending ord P.maxTxsPerBlock) ⟨s.mempool.inner, []⟩,
          f.batches ++ [s.mempool.inner.getPending ord P.maxTxsPerBlock], f.submitted⟩ :=
      hf.tail (.round clock ord) trivial (bind_eq_ok.mpr ⟨_, hdrain, rfl⟩)
    have hheld : s.held = [] := held_of_ne (by rw [hc]; exact nofun)
    obtain ⟨huncleared, hflatten⟩ := List.append_eq_nil_iff.mp hclear
    refine ⟨hexec, _, hround.submitAll s.mempool.incoming, ?_, nofun, fun _ => ⟨?_, ?_⟩⟩
    · show f.batches ++ [_] = s.blocks.map (·.txs) ++ (s.receivedBatch ++ s.channel ++ [_])
      rw [hbatches]
      unfold collected
      rw [hheld, List.append_nil, List.append_assoc]
    · exact hsubmitted.symm
    · have hinFlight : inFlight P { s with
          collector := .holding (s.mempool.inner.getPending ord P.maxTxsPerBlock) } =
            (s.mempool.inner.getPending ord P.maxTxsPerBlock).map P.hash := by
        unfold collected at hflatten
        rw [hheld, List.append_nil] at hflatten
        show s.uncleared ++ ((s.receivedBatch ++ s.channel) ++ [_]).flatten.map P.hash = _
        rw [huncleared, List.flatten_append, List.map_append, hflatten]
        simp
      rw [hinFlight]
      rfl
  · obtain rfl := pure_inv hs
    exact h

/-- A step that moves batches along, and leaves the pool without what is in flight as it was. -/
theorem Follows.move (h : Follows P app config s) (hexec : BlocksExecuted P app s'.blocks s'.app)
    (hbatches : s.blocks.map (·.txs) ++ s.collected = s'.blocks.map (·.txs) ++ s'.collected)
    (hcollector : s'.collector = .drained ↔ s.collector = .drained)
    (hincoming : s'.mempool.incoming = s.mempool.incoming)
    (hinner : s'.mempool.inner.removeAll (s'.inFlight P) =
      s.mempool.inner.removeAll (s.inFlight P))
    (hsubmitted : s'.submitted = s.submitted) : Follows P app config s' := by
  obtain ⟨-, f, hf, hold, hlinked⟩ := h
  refine ⟨hexec, f, hf, hold.trans hbatches, fun hc => ?_, fun hc => ?_⟩
  · rw [hsubmitted, hincoming, hinner]
    exact hlinked.behind (hcollector.mp hc)
  · rw [hsubmitted, hincoming, hinner]
    exact hlinked.level fun h => hc (hcollector.mpr h)

variable {call : PipelineStep α}

/-- **Step lemma.** An undisturbed step keeps following some feed. -/
theorem Follows.step (h : Follows P app config s) (hok : Undisturbed P s call)
    (hs : step P call s = .ok s') : Follows P app config s' := by
  cases call with
  | submit tx =>
    obtain rfl := pure_inv hs
    exact h.submit tx
  | drain clock => exact h.drain hok hs
  | getPending ord => exact h.getPending hok hs
  | send =>
    unfold Pipeline.step at hs
    dsimp only at hs
    split at hs
    · rename_i txs hc
      split at hs
      · obtain rfl := pure_inv hs
        have hcollected : s.collected =
            collected { s with collector := .idle, channel := s.channel ++ [txs] } := by
          have hheld : s.held = [txs] := by
            unfold held
            rw [hc]
          show s.receivedBatch ++ s.channel ++ s.held =
            s.receivedBatch ++ (s.channel ++ [txs]) ++ []
          rw [hheld, List.append_nil, List.append_assoc]
        refine h.move h.executed ?_ (by simp [hc]) rfl ?_ rfl
        · rw [hcollected]
        · unfold inFlight
          rw [hcollected]
          rfl
      · obtain rfl := pure_inv hs
        exact h
    · obtain rfl := pure_inv hs
      exact h
  | receive =>
    unfold Pipeline.step at hs
    dsimp only at hs
    split at hs
    · rename_i txs channel hexecutor hchannel
      obtain rfl := pure_inv hs
      have hcollected : s.collected =
          collected { s with executor := .received txs, channel } := by
        have hreceived : s.receivedBatch = [] := by
          unfold receivedBatch
          rw [hexecutor]
        show s.receivedBatch ++ s.channel ++ s.held = [txs] ++ channel ++ s.held
        rw [hreceived, hchannel]
        rfl
      have huncleared : s.uncleared = [] := by
        unfold uncleared
        rw [hexecutor]
      refine h.move h.executed ?_ .rfl rfl ?_ rfl
      · rw [hcollected]
      · unfold inFlight
        rw [hcollected, huncleared]
        rfl
    · obtain rfl := pure_inv hs
      exact h
  | execute timestamp ord =>
    unfold Pipeline.step at hs
    dsimp only at hs
    split at hs
    · rename_i txs hexecutor
      obtain ⟨block, hblock, hs⟩ := bind_inv hs
      obtain rfl := pure_inv hs
      have hreceived : s.receivedBatch = [txs] := by
        unfold receivedBatch
        rw [hexecutor]
      have huncleared : s.uncleared = [] := by
        unfold uncleared
        rw [hexecutor]
      refine h.move (h.executed.snoc timestamp ord hblock) ?_ .rfl rfl ?_ rfl
      · show _ = (s.blocks ++ [block]).map (·.txs) ++ ([] ++ s.channel ++ s.held)
        unfold collected
        rw [hreceived, List.map_append, List.map_singleton,
          ProducerParts.executeBatch_txs hblock]
        simp
      · -- the hashes stay in flight, now as those to be cleared
        refine congrArg s.mempool.inner.removeAll ?_
        show txs.map P.hash ++ ([] ++ s.channel ++ s.held).flatten.map P.hash = s.inFlight P
        unfold inFlight collected
        rw [huncleared, hreceived]
        simp
    · obtain rfl := pure_inv hs
      exact h
  | clear =>
    unfold Pipeline.step at hs
    dsimp only at hs
    split at hs
    · rename_i hexecutor
      obtain rfl := pure_inv hs
      have hreceived : s.receivedBatch = [] := by
        unfold receivedBatch
        rw [hexecutor]
      have huncleared : s.uncleared = [] := by
        unfold uncleared
        rw [hexecutor]
      refine h.move h.executed ?_ .rfl rfl ?_ rfl
      · unfold collected
        rw [hreceived]
        rfl
      · unfold inFlight collected
        rw [hreceived, huncleared]
        rfl
    · rename_i hash hashes hexecutor
      obtain rfl := pure_inv hs
      have hreceived : s.receivedBatch = [] := by
        unfold receivedBatch
        rw [hexecutor]
      have huncleared : s.uncleared = hash :: hashes := by
        unfold uncleared
        rw [hexecutor]
      refine h.move h.executed ?_ .rfl rfl ?_ rfl
      · unfold collected
        rw [hreceived]
        rfl
      · unfold inFlight collected
        rw [hreceived, huncleared]
        rfl
    · obtain rfl := pure_inv hs
      exact h

/-- **The pipeline as single blocks.** When the collector is not disturbed by what is in
flight, no transaction is executed more often than it was submitted, and the blocks are those
of a producer of single blocks with the same submissions: the same batches, heights, timestamps
and applications. -/
theorem pipelined_as_produced [DecidableEq α]
    (h : Run.Reaches (step P) (Undisturbed P) (new app config depth) s) :
    (∀ tx, (s.blocks.flatMap (·.txs)).count tx ≤ s.submitted.count tx) ∧
    ∃ b, BlockProducer.Reachable P app config b ∧ b.blocks = s.blocks ∧ b.app = s.app ∧
      b.submitted = s.submitted := by
  obtain ⟨hexec, f, hf, hbatches, hlinked⟩ : Follows P app config s :=
    Run.Reaches.invariant h .new fun _ _ _ h hok hs => h.step hok hs
  -- between a drain and a batch, the feed has still to hear of the later submissions
  obtain ⟨f, hf, hbatches, hsubmitted⟩ : ∃ f, Feed.Reachable P config f ∧
      f.batches = s.blocks.map (·.txs) ++ s.collected ∧ f.submitted = s.submitted := by
    by_cases hc : s.collector = .drained
    · exact ⟨_, hf.submitAll s.mempool.incoming, hbatches, (hlinked.behind hc).1.symm⟩
    · exact ⟨f, hf, hbatches, (hlinked.level hc).1⟩
  refine ⟨fun tx => ?_, ?_⟩
  · have hcounted := hf.accounted.counted tx
    rw [hbatches, List.flatten_append, List.count_append, hsubmitted] at hcounted
    rw [List.flatMap_def]
    omega
  · obtain ⟨b, hb, hblocks, happ, hsame, -⟩ := hf.blocks hexec hbatches
    exact ⟨b, hb, hblocks, happ, hsame.trans hsubmitted⟩

/-- Nothing disturbs the collector when nothing is in flight. -/
theorem Undisturbed.of_clear (h : s.inFlight P = []) :
    Undisturbed P s call := by
  cases call with
  | drain clock =>
    intro _ m hm
    rw [h]
    exact hm
  | getPending ord => exact fun _ => h
  | _ => exact trivial

/-! #### Two runs -/

/-- Parts with a hash that has no collisions between data of different lengths. -/
def sampleParts : ProducerParts TransactionType where
  keccak256 := MempoolHistory.sizeHash
  actionJson _ := MempoolHistory.cancelAllText
  action := id
  overflow := .trap
  maxTxsPerBlock := 10

/-- A signed transaction. -/
def sampleTx : SignedTx TransactionType := ⟨.cancelAll, 0, some 1⟩

/-- A round of the collector that ends with the batch in the channel. -/
def sendRound : List (PipelineStep TransactionType) :=
  [.drain fun k => k, .getPending .sorted, .send]

/-- A block, and the removal of its one transaction. -/
def executeRound (timestamp : Timestamp) : List (PipelineStep TransactionType) :=
  [.receive, .execute timestamp .sorted, .clear, .clear]

/-- The steps at which the collector looks at the mempool. -/
def looks : PipelineStep TransactionType → Bool
  | .drain _ | .getPending _ => true
  | _ => false

theorem pipelined_as_produced_rounds : ∃ b,
    BlockProducer.Reachable sampleParts .new {} b ∧
      b.blocks.map (·.txs) = [[sampleTx], []] := by
  obtain ⟨s, hs, ht⟩ := Exec.exists_of_test
    (x := ([PipelineStep.submit sampleTx] ++ sendRound ++ executeRound 1 ++ sendRound ++
      executeRound 2).foldlM (fun (s : Pipeline TransactionType) call =>
        if looks call → s.inFlight sampleParts = [] then step sampleParts call s
        else .error .panic) (new .new {} 2))
    (p := fun s => s.blocks.map (·.txs) = [[sampleTx], []])
    (by decide +kernel)
  have hrun := Run.Reaches.of_checked (fun s call => inferInstance) hs
  have hok : ∀ (s : Pipeline TransactionType) call,
      (looks call → s.inFlight sampleParts = []) → Undisturbed sampleParts s call := by
    intro s call h
    cases call with
    | drain clock => exact .of_clear (h rfl)
    | getPending ord => exact .of_clear (h rfl)
    | _ => exact trivial
  obtain ⟨-, b, hb, hsame, -⟩ := pipelined_as_produced (hrun.mono hok)
  exact ⟨b, hb, by rw [hsame]; exact of_decide_eq_true ht⟩

/-- A batch that is collected before the last one is cleared has its transaction again. -/
theorem collected_twice : ∃ s,
    Run.Reaches (step sampleParts) (fun _ _ => True) (new .new {} 2) s ∧
      s.submitted = [sampleTx] ∧ s.blocks.map (·.txs) = [[sampleTx], [sampleTx]] := by
  obtain ⟨s, hs, ht⟩ := Exec.exists_of_test
    (x := ([PipelineStep.submit sampleTx] ++ sendRound ++ sendRound ++ executeRound 1 ++
      executeRound 2).foldlM (fun s call => step sampleParts call s) (new .new {} 2))
    (p := fun s => s.submitted = [sampleTx] ∧ s.blocks.map (·.txs) = [[sampleTx], [sampleTx]])
    (by decide +kernel)
  exact ⟨s, .of_foldlM (fun _ _ _ => trivial) hs, of_decide_eq_true ht⟩

end Pipeline

end Hypercore
