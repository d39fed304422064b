import Hypercore.Chain.EvmReplay
import Hypercore.Evm.Restart
import Hypercore.Lib.Sim
/-!
# Hypercore.Chain.EvmLockstep

Nodes that execute the same blocks, each by its own clock and with its own restarts.

What an EVM transaction sees of its block are the executor's block number and block
timestamp. Neither comes from the block: the number counts the EVM transactions since
the node was started, the timestamp is the node's clock at the last of them. Nodes stay
in step through those blocks before whose EVM transactions these two agree.
-/

namespace Hypercore

open Exec Int128

/-! ### Applications that blocks do not tell apart -/

namespace AppState

/-- A relation between applications that everything a block does preserves, with the same
answers on both sides. -/
structure Bisimulation (R : AppState → AppState → Prop) : Prop where
  unifiedState : ∀ {s t}, R s t → s.unifiedState = t.unifiedState
  engine : ∀ {s t}, R s t → s.engine = t.engine
  height : ∀ {s t}, R s t → s.height = t.height
  appHash : ∀ {s t}, R s t → s.appHash = t.appHash
  setUnified : ∀ {s t}, R s t → ∀ u, R (s.setUnified u) (t.setUnified u)
  beginBlock : ∀ {s t}, R s t → ∀ height timestamp,
    R (s.beginBlock height timestamp) (t.beginBlock height timestamp)
  executeTx : ∀ {s t}, R s t → ∀ tx timestamp, Sim (fun x y => x.1 = y.1 ∧ R x.2 y.2)
    (s.executeTx tx timestamp) (t.executeTx tx timestamp)
  finishBlock : ∀ {s t}, R s t → ∀ ord evmRoot,
    Sim R (finishBlock ord { s with evmRoot }) (finishBlock ord { t with evmRoot })

/-- Applications that no sequence of blocks tells apart. -/
def Alike (s t : AppState) : Prop := ∃ R, Bisimulation R ∧ R s t

theorem Bisimulation.eq : Bisimulation Eq where
  unifiedState h := h ▸ rfl
  engine h := h ▸ rfl
  height h := h ▸ rfl
  appHash h := h ▸ rfl
  setUnified h _ := h ▸ rfl
  beginBlock h _ _ := h ▸ rfl
  executeTx h _ _ := h ▸ .refl (fun _ => ⟨rfl, rfl⟩) _
  finishBlock h _ _ := h ▸ .refl (fun _ => rfl) _

theorem Bisimulation.flip {R : AppState → AppState → Prop} (hR : Bisimulation R) :
    Bisimulation fun t s => R s t where
  unifiedState h := (hR.unifiedState h).symm
  engine h := (hR.engine h).symm
  height h := (hR.height h).symm
  appHash h := (hR.appHash h).symm
  setUnified h u := hR.setUnified h u
  beginBlock h height timestamp := hR.beginBlock h height timestamp
  executeTx h tx timestamp :=
    (hR.executeTx h tx timestamp).symm.mono fun _ _ h => ⟨h.1.symm, h.2⟩
  finishBlock h ord evmRoot := (hR.finishBlock h ord evmRoot).symm

theorem Bisimulation.comp {R S : AppState → AppState → Prop} (hR : Bisimulation R)
    (hS : Bisimulation S) : Bisimulation fun s u => ∃ t, R s t ∧ S t u where
  unifiedState h := by
    obtain ⟨t, hst, htu⟩ := h
    exact (hR.unifiedState hst).trans (hS.unifiedState htu)
  engine h := by
    obtain ⟨t, hst, htu⟩ := h
    exact (hR.engine hst).trans (hS.engine htu)
  height h := by
    obtain ⟨t, hst, htu⟩ := h
    exact (hR.height hst).trans (hS.height htu)
  appHash h := by
    obtain ⟨t, hst, htu⟩ := h
    exact (hR.appHash hst).trans (hS.appHash htu)
  setUnified h u := by
    obtain ⟨t, hst, htu⟩ := h
    exact ⟨_, hR.setUnified hst u, hS.setUnified htu u⟩
  beginBlock h height timestamp := by
    obtain ⟨t, hst, htu⟩ := h
    exact ⟨_, hR.beginBlock hst height timestamp, hS.beginBlock htu height timestamp⟩
  executeTx h tx timestamp := by
    obtain ⟨t, hst, htu⟩ := h
    refine (hR.executeTx hst tx timestamp).comp (hS.executeTx htu tx timestamp) ?_
    intro x y z hxy hyz
    exact ⟨hxy.1.trans hyz.1, y.2, hxy.2, hyz.2⟩
  finishBlock h ord evmRoot := by
    obtain ⟨t, hst, htu⟩ := h
    exact (hR.finishBlock hst ord evmRoot).comp (hS.finishBlock htu ord evmRoot)
      fun _ y _ hxy hyz => ⟨y, hxy, hyz⟩

namespace Alike

variable {s t u : AppState}

theorem refl (s : AppState) : Alike s s := ⟨Eq, .eq, rfl⟩

theorem symm (h : Alike s t) : Alike t s := by
  obtain ⟨R, hR, hst⟩ := h
  exact ⟨_, hR.flip, hst⟩

theorem trans (h : Alike s t) (h' : Alike t u) : Alike s u := by
  obtain ⟨R, hR, hst⟩ := h
  obtain ⟨S, hS, htu⟩ := h'
  exact ⟨_, hR.comp hS, t, hst, htu⟩

/-- The largest bisimulation is one. -/
theorem bisimulation : Bisimulation Alike where
  unifiedState h := h.elim fun _ h => h.1.unifiedState h.2
  engine h := h.elim fun _ h => h.1.engine h.2
  height h := h.elim fun _ h => h.1.height h.2
  appHash h := h.elim fun _ h => h.1.appHash h.2
  setUnified h u := h.imp fun _ h => ⟨h.1, h.1.setUnified h.2 u⟩
  beginBlock h height timestamp := h.imp fun _ h => ⟨h.1, h.1.beginBlock h.2 height timestamp⟩
  executeTx h tx timestamp := by
    obtain ⟨R, hR, hst⟩ := h
    exact (hR.executeTx hst tx timestamp).mono fun _ _ h => ⟨h.1, R, hR, h.2⟩
  finishBlock h ord evmRoot := by
    obtain ⟨R, hR, hst⟩ := h
    exact (hR.finishBlock hst ord evmRoot).mono fun _ _ h => ⟨R, hR, h⟩

end Alike

end AppState

/-! ### Nodes under observation -/

open AppState

/-- What an EVM transaction saw and what it gave, gas included. -/
structure EvmCall where
  env : Env
  result : Except EvmExecutorError EvmExecutionResult

/-- A node with its EVM transactions, newest first. -/
abbrev NodeRun := CometBftApp × List EvmCall

/-- A node as it is started, from the application put back and the persisted EVM state. -/
def CometBftApp.start (app : AppState) (p : PersistedEvm) (chainId now : Nat) : CometBftApp where
  app := app
  evmExecutor := some (.started app.unifiedState p chainId now)

namespace CometBftApp

/-- A node after a restart. -/
def restart (c : CometBftApp) (app : AppState) (ord : HashOrder) (now : Nat) : CometBftApp where
  app := app
  evmExecutor := c.evmExecutor.map fun x => x.restarted ord app.unifiedState now

/-- Block number and timestamp that the next EVM transaction sees. -/
def evmContext (c : CometBftApp) : Option (Nat × Nat) :=
  c.evmExecutor.map fun x => (x.blockNumber, x.blockTimestamp)

/-- The EVM state, with the balance sheet. -/
def evmState (c : CometBftApp) : Option EvmState := c.executor.map (·.db)

/-- Executors are as nodes have them. -/
def Ordinary (c : CometBftApp) : Prop := ∀ x, c.evmExecutor = some x → x.Ordinary

variable (N : NodeParts)

/-- The state root of the EVM that the end of a block commits to. -/
def evmRoot (c : CometBftApp) : Option Nat :=
  c.evmExecutor.map fun x => N.rootHash x.db.stateRoot

/-- The EVM transaction that an outcome is of, if it is one. -/
def evmCall (c : CometBftApp) (raw : Bytes) (outcome : TxOutcome) : List EvmCall :=
  match outcome, evmTransaction N raw, c.executor with
  | .evm result, some tx, some x => [⟨x.env tx, result⟩]
  | _, _, _ => []

/-- `finalize_block`, with the EVM transactions it executes. -/
def watchBlock (block : BlockRequest) (y : NodeRun) : Exec NodeRun :=
  observeBlock N (evmCall N) block y

/-- What happens to a set of nodes: all of them execute a block, each by its own clock; or
one of them restarts, with its application put back from persistence. -/
inductive Move (Node : Type)
  | block (height : BlockHeight) (timestamp : Timestamp) (txs : List (Bytes × (Node → Nat)))
    (ord : Node → HashOrder)
  | restart (v : Node) (app : AppState) (ord : HashOrder) (now : Nat)

/-- The block as one of the nodes executes it. -/
def requestOf {Node : Type} (height : BlockHeight) (timestamp : Timestamp)
    (txs : List (Bytes × (Node → Nat))) (ord : Node → HashOrder) (v : Node) : BlockRequest where
  height := height
  timestamp := timestamp
  txs := txs.map fun p => (p.1, p.2 v)
  ord := ord v

variable {Node : Type}

/-- A move of the nodes. One that has crashed stays so. -/
def move [DecidableEq Node] (s : Node → Exec NodeRun) : Move Node → Node → Exec NodeRun
  | .block height timestamp txs ord => fun v => do
    watchBlock N (requestOf height timestamp txs ord v) (← s v)
  | .restart v app ord now =>
    Function.update s v do
      let y ← s v
      return (y.1.restart app ord now, y.2)

/-- Before every EVM transaction of a list, two nodes agree on number and timestamp. -/
def ContextsAgree (timestamp : Timestamp) :
    List (Bytes × Nat × Nat) → CometBftApp → CometBftApp → Prop
  | [], _, _ => True
  | (raw, now, now') :: rest, c, d =>
    (evmTransaction N raw = none ∨ c.evmContext = d.evmContext) ∧
      After (c.deliverTx N timestamp raw now) fun y =>
        After (d.deliverTx N timestamp raw now') fun z => ContextsAgree timestamp rest y.2 z.2

/-- The order in which a node's hash maps iterate does not show at the end of a block. -/
def EndsAlike (ord ord' : HashOrder) (c : CometBftApp) : Prop :=
  Sim Alike (finishBlock ord { c.app with evmRoot := c.evmRoot N })
    (finishBlock ord' { c.app with evmRoot := c.evmRoot N })

/-- A block through which two nodes stay in step, unless they have executed it: the EVM context
agrees before each EVM transaction, and hash order does not show at the end. -/
def BlockInStep (height : BlockHeight) (timestamp : Timestamp)
    (txs : List (Bytes × (Node → Nat))) (ord : Node → HashOrder) (v w : Node)
    (y z : NodeRun) : Prop :=
  let c := { y.1 with app := y.1.app.beginBlock height timestamp }
  let d := { z.1 with app := z.1.app.beginBlock height timestamp }
  y.1.app.height = height ∨
    ContextsAgree N timestamp (txs.map fun p => (p.1, p.2 v, p.2 w)) c d ∧
    After (observeTxs N (evmCall N) timestamp (txs.map fun p => (p.1, p.2 v)) (c, y.2)) fun r =>
      EndsAlike N (ord v) (ord w) r.1

/-- Moves that keep nodes in step. A restart puts back an application that behaves like the
one that was persisted. -/
def InStep (s : Node → Exec NodeRun) : Move Node → Prop
  | .block height timestamp txs ord =>
    ∀ v w, After (s v) fun y => After (s w) fun z =>
      BlockInStep N height timestamp txs ord v w y z
  | .restart v app _ _ => After (s v) fun y => Alike app y.1.app

/-! ### Nodes in step -/

/-- Nodes that differ only in what their applications do not show, and in the number and the
timestamp of their executors. -/
structure Twins (c d : CometBftApp) : Prop where
  app : Alike c.app d.app
  executor : c.evmExecutor.map (·.onBlock .new 0 0) = d.evmExecutor.map (·.onBlock .new 0 0)

variable {N} {c d c' : CometBftApp} {timestamp : Timestamp}

theorem Twins.symm (h : Twins c d) : Twins d c := ⟨h.app.symm, h.executor.symm⟩

theorem Twins.trans (h : Twins c d) (h' : Twins d c') : Twins c c' :=
  ⟨h.app.trans h'.app, h.executor.trans h'.executor⟩

/-- Twins whose number and timestamp agree call the same executor. -/
theorem Twins.executor_eq (h : Twins c d) (hctx : c.evmContext = d.evmContext) :
    c.executor = d.executor := by
  have hexec := h.executor
  have hsheet := AppState.Alike.bisimulation.unifiedState h.app
  unfold evmContext at hctx
  unfold CometBftApp.executor
  cases hx : c.evmExecutor with
  | none =>
    rw [hx] at hexec
    rw [Option.map_eq_none_iff.mp hexec.symm]
    rfl
  | some x =>
    cases hy : d.evmExecutor with
    | none =>
      rw [hx, hy] at hexec
      cases hexec
    | some y =>
      rw [hx, hy] at hexec hctx
      obtain ⟨hnumber, htime⟩ := Prod.mk.inj (Option.some.inj hctx)
      have hback : x.onBlock d.app.unifiedState y.blockNumber y.blockTimestamp =
          y.onBlock d.app.unifiedState y.blockNumber y.blockTimestamp :=
        congrArg (·.onBlock d.app.unifiedState y.blockNumber y.blockTimestamp)
          (Option.some.inj hexec)
      rw [Option.map_some, Option.map_some, hsheet]
      unfold EvmExecutor.onBlock at hback
      rw [hnumber, htime]
      exact congrArg some hback

theorem Twins.evmRoot (h : Twins c d) : c.evmRoot N = d.evmRoot N := by
  -- the state root does not read the balance sheet
  have hroot : ∀ c : CometBftApp, c.evmRoot N =
      (c.evmExecutor.map (·.onBlock .new 0 0)).map fun x => N.rootHash x.db.stateRoot := by
    intro c
    rw [Option.map_map]
    rfl
  rw [hroot, hroot, h.executor]

theorem Twins.evmState (h : Twins c d) : c.evmState = d.evmState := by
  have hstate : ∀ c : CometBftApp, c.evmState =
      (c.evmExecutor.map (·.onBlock .new 0 0)).map
        fun x => x.db.setUnified c.app.unifiedState := by
    intro c
    unfold CometBftApp.evmState CometBftApp.executor
    rw [Option.map_map, Option.map_map]
    rfl
  rw [hstate, hstate, h.executor, Alike.bisimulation.unifiedState h.app]

/-- Once the executors have run the same transaction, they differ in the clock alone. -/
theorem Twins.commit (h : Twins c d) (x : EvmExecutor) (now now' : Nat) :
    Sim (fun y z => Twins (c.putExecutor y) (d.putExecutor z)) (x.commit now) (x.commit now') := by
  refine Sim.bind_same _ fun number => .ok ?_
  exact ⟨Alike.bisimulation.setUnified h.app _, rfl⟩

/-- **Delivery.** Twins whose contexts agree before an EVM transaction give the same outcome
and remain twins. -/
theorem Twins.deliverTx (h : Twins c d) {raw : Bytes} (now now' : Nat)
    (hctx : evmTransaction N raw = none ∨ c.evmContext = d.evmContext) :
    Sim (fun y z => y.1 = z.1 ∧ Twins y.2 z.2) (c.deliverTx N timestamp raw now)
      (d.deliverTx N timestamp raw now') := by
  unfold evmTransaction at hctx
  unfold CometBftApp.deliverTx
  cases htx : N.decoders.transaction raw with
  | some tx =>
    refine (Alike.bisimulation.executeTx h.app tx timestamp).bind fun y z hyz => .ok ?_
    exact ⟨congrArg TxOutcome.core hyz.1, hyz.2, h.executor⟩
  | none =>
    cases hd : N.decoders.decodeRawTransaction raw with
    | error e => exact .halt e
    | ok decoded =>
      cases decoded with
      | none => exact .ok ⟨rfl, h⟩
      | some tx =>
        have heq : c.executor = d.executor := by
          refine h.executor_eq (hctx.resolve_left ?_)
          rw [htx, hd]
          simp
        dsimp only [ok_bind]
        rw [heq, Alike.bisimulation.engine h.app]
        cases d.executor with
        | none => exact .ok ⟨rfl, h⟩
        | some x =>
          refine Sim.bind_same _ fun y => ?_
          obtain ⟨result, x⟩ := y
          cases result with
          | error e => exact .ok ⟨rfl, Alike.bisimulation.setUnified h.app _, rfl⟩
          | ok result => exact (h.commit x now now').bind fun y z hyz => .ok ⟨rfl, hyz⟩

/-- Twins whose contexts agree note the same of an EVM transaction. -/
theorem Twins.evmCall (h : Twins c d) {raw : Bytes} (outcome : TxOutcome)
    (hctx : evmTransaction N raw = none ∨ c.evmContext = d.evmContext) :
    c.evmCall N raw outcome = d.evmCall N raw outcome := by
  unfold CometBftApp.evmCall
  rcases hctx with hnone | hctx
  · rw [hnone]
    cases outcome <;> rfl
  · rw [h.executor_eq hctx]

/-- **Step lemma.** Through transactions before which the contexts agree, twins remain twins
and note the same. -/
theorem Twins.observeTxs (h : Twins c d) {txs : List (Bytes × Nat × Nat)} (calls : List EvmCall)
    (hctx : ContextsAgree N timestamp txs c d) :
    Sim (fun y z => Twins y.1 z.1 ∧ y.2 = z.2)
      (CometBftApp.observeTxs N (CometBftApp.evmCall N) timestamp
        (txs.map fun p => (p.1, p.2.1)) (c, calls))
      (CometBftApp.observeTxs N (CometBftApp.evmCall N) timestamp
        (txs.map fun p => (p.1, p.2.2)) (d, calls)) := by
  induction txs generalizing c d calls with
  | nil => exact .ok ⟨h, rfl⟩
  | cons p txs ih =>
    obtain ⟨raw, now, now'⟩ := p
    obtain ⟨hhead, htail⟩ := hctx
    simp only [List.map_cons, observeTxs_cons]
    refine (h.deliverTx now now' hhead).bind_of_ok fun y z hy hz hyz => ?_
    rw [hyz.1, h.evmCall z.1 hhead]
    exact ih hyz.2 _ (htail y hy z hz)

theorem endBlock_eq (ord : HashOrder) :
    c.endBlock N ord = (do
      let app ← finishBlock ord { c.app with evmRoot := c.evmRoot N }
      return { c with app }) := rfl

/-- The end of a block keeps twins, if hash order does not show. -/
theorem Twins.endBlock (h : Twins c d) {ord ord' : HashOrder} (hends : EndsAlike N ord ord' c) :
    Sim Twins (c.endBlock N ord) (d.endBlock N ord') := by
  have hfinish := hends.comp (Alike.bisimulation.finishBlock h.app ord' (c.evmRoot N))
    fun _ _ _ => Alike.trans
  rw [endBlock_eq, endBlock_eq, ← h.evmRoot]
  exact hfinish.bind fun app app' happ => .ok ⟨happ, h.executor⟩

/-- **Blocks.** Twins that a block keeps in step remain twins and note the same. -/
theorem Twins.watchBlock {height : BlockHeight} {txs : List (Bytes × (Node → Nat))}
    {ord : Node → HashOrder} {v w : Node} {y z : NodeRun}
    (h : Twins y.1 z.1 ∧ y.2 = z.2) (hok : BlockInStep N height timestamp txs ord v w y z) :
    Sim (fun y z : NodeRun => Twins y.1 z.1 ∧ y.2 = z.2)
      (CometBftApp.watchBlock N (requestOf height timestamp txs ord v) y)
      (CometBftApp.watchBlock N (requestOf height timestamp txs ord w) z) := by
  obtain ⟨c, calls⟩ := y
  obtain ⟨d, calls'⟩ := z
  obtain ⟨htwins, rfl⟩ := h
  have hheight : c.app.height = d.app.height := Alike.bisimulation.height htwins.app
  unfold CometBftApp.watchBlock
  by_cases hsame : c.app.height = height
  · rw [observeBlock_same hsame, observeBlock_same (hheight ▸ hsame)]
    exact .ok ⟨htwins, rfl⟩
  · rw [observeBlock_new hsame, observeBlock_new (hheight ▸ hsame)]
    obtain ⟨hctx, hends⟩ := hok.resolve_left hsame
    have hbegun : Twins { c with app := c.app.beginBlock height timestamp }
        { d with app := d.app.beginBlock height timestamp } :=
      ⟨Alike.bisimulation.beginBlock htwins.app _ _, htwins.executor⟩
    have hrun := hbegun.observeTxs calls hctx
    simp only [List.map_map] at hrun
    refine hrun.bind_of_ok fun r r' hr _ hrr => ?_
    exact (hrr.1.endBlock (hends r hr)).bind fun e e' hee => .ok ⟨hee, hrr.2⟩

theorem Ordinary.executor (h : c.Ordinary) {x : EvmExecutor} (hx : c.executor = some x) :
    x.Ordinary := by
  obtain ⟨y, hy, rfl⟩ := Option.map_eq_some_iff.mp hx
  exact ⟨(h y hy).db.setUnified _, (h y hy).blockGasLimit, (h y hy).enforceGasFees⟩

theorem Ordinary.deliverTx (h : c.Ordinary) {raw : Bytes} {now : Nat}
    {y : TxOutcome × CometBftApp} (hy : c.deliverTx N timestamp raw now = .ok y) :
    y.2.Ordinary := by
  unfold CometBftApp.deliverTx at hy
  cases htx : N.decoders.transaction raw with
  | some tx =>
    rw [htx] at hy
    obtain ⟨r, -, hy⟩ := bind_inv hy
    cases pure_inv hy
    exact h
  | none =>
    rw [htx] at hy
    obtain ⟨decoded, -, hy⟩ := bind_inv hy
    cases decoded with
    | none =>
      cases pure_inv hy
      exact h
    | some tx =>
      dsimp only at hy
      cases hx : c.executor with
      | none =>
        rw [hx] at hy
        cases pure_inv hy
        exact h
      | some x =>
        rw [hx] at hy
        obtain ⟨⟨result, x'⟩, hexec, hy⟩ := bind_inv hy
        have hord : x'.Ordinary := (h.executor hx).executeTx hexec
        cases result with
        | error e =>
          cases pure_inv hy
          exact fun _ h => Option.some.inj h ▸ hord
        | ok result =>
          obtain ⟨x'', hcommit, hy⟩ := bind_inv hy
          cases pure_inv hy
          obtain ⟨number, -, hcommit⟩ := bind_inv hcommit
          cases pure_inv hcommit
          exact fun _ h => Option.some.inj h ▸
            ⟨hord.db, hord.blockGasLimit, hord.enforceGasFees⟩

theorem Ordinary.watchBlock {block : BlockRequest} {y z : NodeRun} (h : y.1.Ordinary)
    (hz : CometBftApp.watchBlock N block y = .ok z) : z.1.Ordinary := by
  obtain ⟨c, calls⟩ := y
  unfold CometBftApp.watchBlock at hz
  by_cases hsame : c.app.height = block.height
  · rw [observeBlock_same hsame] at hz
    cases hz
    exact h
  · rw [observeBlock_new hsame] at hz
    obtain ⟨⟨d, l⟩, hd, hz⟩ := bind_inv hz
    obtain ⟨e, he, hz⟩ := bind_inv hz
    cases pure_inv hz
    obtain ⟨app, -, he⟩ := bind_inv he
    cases pure_inv he
    have hbegun : Ordinary { c with app := c.app.beginBlock block.height block.timestamp } := h
    have hd : d.Ordinary :=
      observeTxs_invariant (P := Ordinary) (fun c raw now y hc hy => hc.deliverTx hy) hbegun hd
    exact hd

theorem Ordinary.restart (h : c.Ordinary) (app : AppState) (ord : HashOrder) (now : Nat) :
    (c.restart app ord now).Ordinary := by
  intro x hx
  obtain ⟨y, hy, rfl⟩ := Option.map_eq_some_iff.mp hx
  rw [(h y hy).restarted_eq]
  exact (h y hy).onBlock _ _ _

/-- **Restarts.** A node whose application behaves like the persisted one is its own twin. -/
theorem Twins.restart (h : Twins c d) (hc : c.Ordinary) {app : AppState}
    (happ : Alike app c.app) (ord : HashOrder) (now : Nat) :
    Twins (c.restart app ord now) d := by
  refine ⟨happ.trans h.app, ?_⟩
  rw [← h.executor]
  unfold CometBftApp.restart
  cases hx : c.evmExecutor with
  | none => rfl
  | some x =>
    rw [Option.map_some, (hc x hx).restarted_eq]
    rfl

/-- Nodes that are twins and have noted the same. -/
def TwinRuns (y z : NodeRun) : Prop := Twins y.1 z.1 ∧ y.2 = z.2

/-- The nodes are twins and have noted the same, or have crashed alike. -/
structure Lockstep (s : Node → Exec NodeRun) : Prop where
  twins : ∀ v w, Sim TwinRuns (s v) (s w)
  ordinary : ∀ v, After (s v) fun y => y.1.Ordinary

/-- Nodes started from the same persisted state are in lockstep, whatever their clocks read. -/
theorem lockstep_start (app : AppState) {p : PersistedEvm} (hp : p.blockHashes = [])
    (chainId : Nat) (now : Node → Nat) :
    Lockstep fun v => .ok (start app p chainId (now v), []) where
  twins v w := .ok ⟨⟨.refl app, rfl⟩, rfl⟩
  ordinary v := by
    rw [after_ok]
    intro x hx
    obtain rfl := Option.some.inj hx
    exact EvmExecutor.ordinary_started app.unifiedState hp chainId (now v)

section Runs

variable [DecidableEq Node] {s : Node → Exec NodeRun}

/-- A node that restarts is its own twin, and the others are untouched. -/
theorem Lockstep.restart (h : Lockstep s) {v : Node} {app : AppState}
    (happ : After (s v) fun y => Alike app y.1.app) (ord : HashOrder) (now : Nat) (w : Node) :
    Sim TwinRuns (CometBftApp.move N s (.restart v app ord now) w) (s w) ∧
      After (CometBftApp.move N s (.restart v app ord now) w) fun y => y.1.Ordinary := by
  unfold CometBftApp.move
  dsimp only
  have htwins := h.twins w w
  have hordinary := h.ordinary w
  by_cases hvw : w = v
  · subst hvw
    rw [Function.update_self]
    cases hs : s w with
    | error e => exact ⟨.halt e, fun _ hz => by cases hz⟩
    | ok y =>
      rw [hs] at htwins
      cases htwins with
      | ok hy =>
        refine ⟨.ok ⟨hy.1.restart (hordinary y hs) (happ y hs) ord now, rfl⟩, fun z hz => ?_⟩
        cases pure_inv hz
        exact (hordinary y hs).restart app ord now
  · rw [Function.update_of_ne hvw]
    exact ⟨htwins, hordinary⟩

/-- **Step lemma.** Moves that keep the nodes in step keep the lockstep. -/
theorem Lockstep.move (h : Lockstep s) {m : Move Node} (hok : InStep N s m) :
    Lockstep (CometBftApp.move N s m) := by
  cases m with
  | block height timestamp txs ord =>
    constructor
    case twins =>
      intro v w
      exact (h.twins v w).bind_of_ok fun y z hy hz hyz =>
        Twins.watchBlock hyz (hok v w y hy z hz)
    case ordinary =>
      intro v z hz
      obtain ⟨y, hy, hz⟩ := bind_inv hz
      exact (h.ordinary v y hy).watchBlock hz
  | restart v app ord now =>
    have hone := h.restart (N := N) hok ord now
    constructor
    case twins =>
      intro w w'
      have hback : Sim TwinRuns (s w') (CometBftApp.move N s (.restart v app ord now) w') :=
        (hone w').1.symm.mono fun y z hyz => ⟨hyz.1.symm, hyz.2.symm⟩
      have htrans : ∀ x y z, TwinRuns x y → TwinRuns y z → TwinRuns x z :=
        fun x y z hxy hyz => ⟨hxy.1.trans hyz.1, hxy.2.trans hyz.2⟩
      exact ((hone w).1.comp (h.twins w w') htrans).comp hback htrans
    case ordinary => exact fun w => (hone w).2

/-- A run goes on with any admitted move. -/
theorem reaches_move {ok : (Node → Exec NodeRun) → Move Node → Prop} {s₀ : Node → Exec NodeRun}
    (h : Run.Reaches (fun m s => return CometBftApp.move N s m) ok s₀ s) (m : Move Node)
    (hok : ok s m) :
    Run.Reaches (fun m s => return CometBftApp.move N s m) ok s₀ (CometBftApp.move N s m) :=
  h.tail m hok rfl

theorem move_restart {v : Node} {y : NodeRun} (hy : s v = .ok y) (app : AppState)
    (ord : HashOrder) (now : Nat) :
    CometBftApp.move N s (.restart v app ord now) =
      Function.update s v (.ok (y.1.restart app ord now, y.2)) := by
  unfold CometBftApp.move
  dsimp only
  rw [hy]
  rfl

/-- What two nodes agree on: the EVM transactions they executed, with environments, results
and gas, the app hash and the EVM state. -/
def SameEvm (y z : NodeRun) : Prop :=
  y.2 = z.2 ∧ y.1.app.appHash = z.1.app.appHash ∧ y.1.evmState = z.1.evmState

/-- **Determinism of the EVM.** Nodes start from the same persisted state, execute the same
blocks and restart, by whatever clocks. In every run that keeps them in step they have executed
the same EVM transactions in the same environments, with the same results, state and app hash,
or have crashed alike. -/
theorem evm_in_step {app : AppState} {p : PersistedEvm} (hp : p.blockHashes = [])
    {chainId : Nat} {now : Node → Nat}
    (h : Run.Reaches (fun m s => return move N s m) (InStep N)
      (fun v => .ok (start app p chainId (now v), [])) s) (v w : Node) :
    Sim SameEvm (s v) (s w) := by
  have hlock : Lockstep s := by
    refine h.invariant (P := Lockstep) (lockstep_start app hp chainId now) ?_
    intro t m t' ht hok hs
    cases pure_inv hs
    exact ht.move hok
  refine (hlock.twins v w).mono fun y z hyz => ?_
  exact ⟨hyz.2, Alike.bisimulation.appHash hyz.1.app, hyz.1.evmState⟩

end Runs

/-! ### Two nodes -/

/-- Two fresh nodes, started when both clocks read 5. -/
def twoNodes : Bool → Exec NodeRun := fun _ => .ok (start .new ⟨[], [], [], []⟩ 1337 5, [])

/-- A block with one EVM transaction, after which the clocks of two nodes read as given. -/
def oneTxBlock (height : BlockHeight) (clock : Bool → Nat) : Move Bool :=
  .block height (1000 * height) [(AppState.signedTransfer, clock)] fun _ => .sorted

theorem move_oneTxBlock (s : Bool → Exec NodeRun) (height : BlockHeight) (clock : Bool → Nat)
    (v : Bool) : move sampleParts s (oneTxBlock height clock) v = (do
      watchBlock sampleParts (requestOf height (1000 * height)
        [(AppState.signedTransfer, clock)] (fun _ => .sorted) v) (← s v)) := rfl

/-- Two nodes whose clocks drift apart execute an EVM transaction and restart. -/
theorem evm_in_step_restarted : ∃ s : Bool → Exec NodeRun,
    Run.Reaches (fun m s => return move sampleParts s m) (InStep sampleParts) twoNodes s ∧
    (∀ v, ∃ y, s v = .ok y ∧ y.2.length = 1) ∧ ∀ v w, Sim SameEvm (s v) (s w) := by
  have hrun : ∀ v, ∃ y, move sampleParts twoNodes (oneTxBlock 1 fun v => if v then 7 else 9) v =
      .ok y ∧ y.2.length = 1 := by
    intro v
    obtain ⟨y, hy, hlen⟩ := exists_of_test
      (x := move sampleParts twoNodes (oneTxBlock 1 fun v => if v then 7 else 9) v)
      (p := fun y => y.2.length = 1) (by revert v; decide +kernel)
    exact ⟨y, hy, of_decide_eq_true hlen⟩
  obtain ⟨y, hy, hylen⟩ := hrun true
  obtain ⟨z, hz, hzlen⟩ := hrun false
  have hblock : InStep sampleParts twoNodes (oneTxBlock 1 fun v => if v then 7 else 9) := by
    intro v w _ hc _ hd
    cases hc
    cases hd
    exact .inr ⟨⟨.inr rfl, fun _ _ _ _ => trivial⟩, fun r _ => .refl .refl _⟩
  set s₁ := move sampleParts twoNodes (oneTxBlock 1 fun v => if v then 7 else 9)
  -- both get back the application they had
  have hback : InStep sampleParts s₁ (.restart true y.1.app .sorted 20) := by
    intro y' hy'
    cases hy.symm.trans hy'
    exact .refl _
  have hr := reaches_move (reaches_move .refl _ hblock) _ hback
  rw [move_restart hy] at hr
  set s₂ := Function.update s₁ true (.ok (y.1.restart y.1.app .sorted 20, y.2))
  have hz₂ : s₂ false = .ok z := (Function.update_of_ne (by decide) _ _).trans hz
  have hback₂ : InStep sampleParts s₂ (.restart false z.1.app .reversed 20) := by
    intro z' hz'
    cases hz₂.symm.trans hz'
    exact .refl _
  have hr₂ := reaches_move hr _ hback₂
  rw [move_restart hz₂] at hr₂
  refine ⟨_, hr₂, fun v => ?_, fun v w => evm_in_step rfl hr₂ v w⟩
  cases v with
  | true => exact ⟨_, rfl, hylen⟩
  | false => exact ⟨_, rfl, hzlen⟩

/-- One of two nodes restarts between two blocks, and gets its state back. Its next EVM
transaction sees block number 1 and the time of the restart; on the other node the same
transaction sees block number 2 and the time of the transaction before. -/
theorem evm_out_of_step : ∃ s : Bool → Exec NodeRun,
    Run.Reaches (fun m s => return move sampleParts s m) (fun _ _ => True) twoNodes s ∧
    ∃ y z, s true = .ok y ∧ s false = .ok z ∧
      y.2.map (fun call => (call.env.block.number, call.env.block.timestamp)) =
        [(1, 20), (1, 5)] ∧
      z.2.map (fun call => (call.env.block.number, call.env.block.timestamp)) =
        [(2, 9), (1, 5)] := by
  obtain ⟨⟨y, r, z⟩, hrun, htest⟩ := exists_of_test
    (x := do
      let y ← move sampleParts twoNodes (oneTxBlock 1 fun _ => 9) true
      let r ← watchBlock sampleParts (requestOf 2 (1000 * 2)
        [(AppState.signedTransfer, fun _ => 30)] (fun _ : Bool => .sorted) true)
        (y.1.restart y.1.app .sorted 20, y.2)
      let z ← move sampleParts (move sampleParts twoNodes (oneTxBlock 1 fun _ => 9))
        (oneTxBlock 2 fun _ => 30) false
      return (y, r, z))
    (p := fun x => x.2.1.2.map (fun call => (call.env.block.number, call.env.block.timestamp)) =
        [(1, 20), (1, 5)] ∧
      x.2.2.2.map (fun call => (call.env.block.number, call.env.block.timestamp)) =
        [(2, 9), (1, 5)]) (by decide +kernel)
  obtain ⟨hseen, hseen'⟩ := of_decide_eq_true htest
  obtain ⟨y', hy, hrun⟩ := bind_inv hrun
  obtain ⟨r', hr, hrun⟩ := bind_inv hrun
  obtain ⟨z', hz, hrun⟩ := bind_inv hrun
  cases pure_inv hrun
  have hstart : Run.Reaches (fun m s => return move sampleParts s m) (fun _ _ => True) twoNodes
      twoNodes := .refl
  have hrestart := reaches_move (reaches_move hstart (oneTxBlock 1 fun _ => 9) trivial)
    (.restart true y.1.app .sorted 20) trivial
  rw [move_restart hy] at hrestart
  have hreach := reaches_move hrestart (oneTxBlock 2 fun _ => 30) trivial
  refine ⟨_, hreach, r, z, ?_, ?_, hseen, hseen'⟩
  · rw [move_oneTxBlock, Function.update_self]
    exact hr
  · rw [move_oneTxBlock, Function.update_of_ne (by decide)]
    exact hz

end CometBftApp

end Hypercore
