import Hypercore.Lib.CommandLoop
import Hypercore.Engine.Snapshot
import Hypercore.Engine.L2
import Hypercore.Chain.State
/-!
# Hypercore.Chain.EngineHandle

The matching thread: the engine behind a channel of commands.

`MatchingCore::run` waits for a command, drains what else has arrived, and processes the batch.
Only the first command of a batch is looked at for a `Shutdown`; `process_command` does nothing
with one. What is applied therefore depends on how the commands happen to be grouped.
-/

namespace Hypercore

open Exec Int128

/-! ### Queries -/

namespace EngineState

/-- The newest entries of a history, the newest first. -/
def newest {α : Type} (default : Nat) (limit : Option Nat) (history : List α) : List α :=
  history.reverse.take (min (limit.getD default) history.length)

/-- Get fills for a user. -/
def getUserFills (s : EngineState) (a : AccountAddress) (limit : Option Nat) : List Fill :=
  newest 100 limit ((s.accountFills[a]?).getD [])

/-- Get recent trades for a market. -/
def getRecentTrades (s : EngineState) (m : MarketId) (limit : Option Nat) : List Fill :=
  newest 50 limit ((s.recentTrades[m]?).getD [])

/-- Get all trigger orders for a user. -/
def getUserTriggerOrders (ord : HashOrder) (s : EngineState) (a : AccountAddress) : List Order :=
  (s.listTriggers ord .above ++ s.listTriggers ord .below).filter (·.owner = a)

/-- Get all open orders for a user across all markets. -/
def getAllUserOrders (ord : HashOrder) (s : EngineState) (a : AccountAddress) : List Order :=
  (ord.visit ((s.accountOrders[a]?).getD ∅).toList).flatMap fun p =>
    p.2.filterMap (s.getOrder p.1)

/-- Get all markets. -/
def getAllMarkets (ord : HashOrder) (s : EngineState) : List Market :=
  (ord.visit s.markets.toList).map (·.2)

end EngineState

/-- Get the mid price, from the price caches. -/
def OrderBook.midPrice (b : OrderBook) : Exec (Option Decimal) :=
  match b.bestBidPrice, b.bestAskPrice with
  | some bid, some ask => do
    let mid ← (← bid.add ask).divInt 2
    return some mid
  | _, _ => return none

/-- Get mid prices for all markets that have both a bid and an ask. -/
def EngineState.getAllMidPrices (s : EngineState) : Exec (List (MarketId × Decimal)) :=
  s.getMarketIds.filterMapM fun m =>
    match s.getOrderbook m with
    | none => return none
    | some book => do
      let mid ← book.midPrice
      return mid.map fun price => (m, price)

/-- Cancel all orders of an account, market after market. Errors are passed over. -/
def Engine.cancelAllMarkets (ord : HashOrder) (e : Engine) (account : AccountAddress) :
    List (MarketId × List Order) × Engine :=
  ((e.state.getAllMarkets ord).map (·.config.id)).foldl (fun x marketId =>
    match x.2.cancelAllOrders account marketId with
    | (.ok orders, e) => (if orders = [] then x.1 else x.1 ++ [(marketId, orders)], e)
    | (.error _, e) => (x.1, e)) ([], e)

/-! ### Commands -/

/-- Commands that can be sent to the matching engine. The reply channels are left out: a reply
is what the core logs for the command. -/
inductive EngineCommand
  | placeOrder (account : AccountAddress) (request : OrderRequest) (timestamp : Timestamp)
  | cancelOrder (account : AccountAddress) (marketId : MarketId) (orderId : OrderId)
  | cancelAll (account : AccountAddress) (marketId : MarketId)
  | cancelAllMarkets (account : AccountAddress)
  | updateLeverage (account : AccountAddress) (marketId : MarketId) (leverage : UInt8)
  | processFunding (timestamp : Timestamp)
  | processLiquidations (timestamp : Timestamp)
  | checkTriggers (marketId : MarketId) (timestamp : Timestamp)
  | removeTriggerOrder (orderId : OrderId)
  | getOrderbook (marketId : MarketId) (depth : Nat)
  | setMarginMode (account : AccountAddress) (mode : MarginMode)
  | storeBlockMetadata (height : BlockHeight) (metadata : BlockMetadata)
  | getEngineSnapshot
  | peekNextOrderId
  | getAllMidPrices
  | getAllMarkets
  | getAllPositions (account : AccountAddress)
  | getAllUserOrders (account : AccountAddress)
  | getUserTriggerOrders (account : AccountAddress)
  | getUserFills (account : AccountAddress) (limit : Option Nat)
  | getRecentTrades (marketId : MarketId) (limit : Option Nat)
  | getAccount (account : AccountAddress)
  | getPosition (account : AccountAddress) (marketId : MarketId)
  | checkOrderExists (marketId : MarketId) (orderId : OrderId)
  | getLeverage (account : AccountAddress) (marketId : MarketId)
  | getAllPositionsGlobal
  | getAllLeverageGlobal
  | shutdown
  deriving DecidableEq

/-- `matches!(cmd, EngineCommand::Shutdown)`. -/
def EngineCommand.isShutdown : EngineCommand → Bool
  | .shutdown => true
  | _ => false

/-- What is sent back for a command. -/
inductive EngineReply
  | placed (result : Except Error (Order × List Fill))
  | canceled (result : Except Error Order)
  | canceledAll (result : Except Error (List Order))
  | canceledMarkets (results : List (MarketId × List Order))
  | done (result : Except Error Unit)
  | prices (prices : List (MarketId × Decimal))
  | liquidations (liquidations : Engine.Liquidations)
  | triggered (results : Engine.Triggered)
  | removed (order : Option Order)
  | book (snapshot : Option (List PriceLevel × List PriceLevel))
  | stored
  | snapshot (snapshot : EngineStateSnapshot)
  | orderId (id : OrderId)
  | markets (markets : List (MarketId × Market))
  | positions (positions : List (MarketId × Position))
  | orders (orders : List Order)
  | fills (fills : List Fill)
  | account (account : Option AccountState)
  | position (position : Option Position)
  | found (present : Bool)
  | leverage (leverage : UInt8)
  | allPositions (positions : FinMap AccountAddress (FinMap MarketId Position))
  | allLeverage (leverage : FinMap AccountAddress (FinMap MarketId UInt8))

/-- The matching core: the engine, and the blocks noted in its state. -/
structure MatchingCore where
  engine : Engine
  blockHeight : BlockHeight
  blockMetadata : FinMap BlockHeight BlockMetadata

namespace MatchingCore

open EngineState

/-- A core on an engine. -/
def new (engine : Engine) : MatchingCore := ⟨engine, 0, ∅⟩

/-- Process one command: the reply, and the core after it. -/
def processCommand (ord : HashOrder) (core : MatchingCore) :
    EngineCommand → Exec (Option EngineReply × MatchingCore)
  | .placeOrder account request timestamp => do
    let (result, engine) ← core.engine.placeOrder account request timestamp
    return (some (.placed result), { core with engine })
  | .cancelOrder account marketId orderId =>
    let (result, engine) := core.engine.cancelOrder account marketId orderId
    return (some (.canceled result), { core with engine })
  | .cancelAll account marketId =>
    let (result, engine) := core.engine.cancelAllOrders account marketId
    return (some (.canceledAll result), { core with engine })
  | .cancelAllMarkets account =>
    let (results, engine) := core.engine.cancelAllMarkets ord account
    return (some (.canceledMarkets results), { core with engine })
  | .updateLeverage account marketId leverage => do
    let (result, engine) ← core.engine.updateLeverage account marketId leverage
    return (some (.done result), { core with engine })
  | .processFunding timestamp => do
    let (rates, engine) ← core.engine.processFunding timestamp
    return (some (.prices rates), { core with engine })
  | .processLiquidations _ => do
    let (liquidations, engine) ← core.engine.processLiquidations ord
    return (some (.liquidations liquidations), { core with engine })
  | .checkTriggers marketId timestamp => do
    let mark := ((core.engine.state.getMarket marketId).map (·.state.markPrice)).getD ⟨0, 8⟩
    let (results, engine) ← core.engine.checkTriggers marketId mark timestamp
    return (some (.triggered results), { core with engine })
  | .removeTriggerOrder orderId =>
    let (order, state) := core.engine.state.removeTriggerOrder orderId
    return (some (.removed order), { core with engine := { core.engine with state } })
  | .getOrderbook marketId depth =>
    match core.engine.state.getOrderbook marketId with
    | none => return (some (.book none), core)
    | some book => do
      let snapshot ← book.getL2 depth
      return (some (.book (some snapshot)), core)
  | .setMarginMode account mode =>
    let (result, engine) := core.engine.setMarginMode account mode
    return (some (.done result), { core with engine })
  | .storeBlockMetadata height metadata =>
    return (some .stored, { core with
      blockMetadata := core.blockMetadata.insert height metadata
      blockHeight := height })
  | .getEngineSnapshot => return (some (.snapshot (core.engine.state.snapshot ord)), core)
  | .peekNextOrderId => return (some (.orderId core.engine.state.nextOrderId), core)
  | .getAllMidPrices => do
    let prices ← core.engine.state.getAllMidPrices
    return (some (.prices prices), core)
  | .getAllMarkets =>
    return (some (.markets ((core.engine.state.getAllMarkets ord).map fun m =>
      (m.config.id, m))), core)
  | .getAllPositions account =>
    return (some (.positions (ord.visit (core.engine.state.getAllPositions account))), core)
  | .getAllUserOrders account =>
    return (some (.orders (core.engine.state.getAllUserOrders ord account)), core)
  | .getUserTriggerOrders account =>
    return (some (.orders (core.engine.state.getUserTriggerOrders ord account)), core)
  | .getUserFills account limit =>
    return (some (.fills (core.engine.state.getUserFills account limit)), core)
  | .getRecentTrades marketId limit =>
    return (some (.fills (core.engine.state.getRecentTrades marketId limit)), core)
  | .getAccount account => return (some (.account (core.engine.state.getAccount account)), core)
  | .getPosition account marketId =>
    return (some (.position (core.engine.state.getPosition account marketId)), core)
  | .checkOrderExists marketId orderId =>
    return (some (.found (((core.engine.state.getOrderbook marketId).map fun book =>
      (book.get orderId).isSome).getD false)), core)
  | .getLeverage account marketId =>
    return (some (.leverage (core.engine.state.getLeverage account marketId)), core)
  | .getAllPositionsGlobal => return (some (.allPositions core.engine.state.positions), core)
  | .getAllLeverageGlobal => return (some (.allLeverage core.engine.state.leverage), core)
  -- only logged; it is `run` that stops
  | .shutdown => return (none, core)

/-- A core and the replies it has sent, each with its command. -/
abbrev Served := MatchingCore × List (EngineCommand × EngineReply)

/-- Process a command and send its reply. -/
def answer (ord : HashOrder) (served : Served) (cmd : EngineCommand) : Exec Served := do
  let done ← processCommand ord served.1 cmd
  return (done.2, served.2 ++ (done.1.map fun reply => (cmd, reply)).toList)

/-- The batches that the draining loop makes of the commands sent: 256 at most in each. -/
structure Drained (commands : List EngineCommand) (batches : List (List EngineCommand)) : Prop where
  flatten : batches.flatten = commands
  nonempty : ∀ batch ∈ batches, batch ≠ []
  bounded : ∀ batch ∈ batches, batch.length ≤ 256

/-- Run the engine loop over the batches it drains. When they are used up the channel is
`closed`, or the loop waits. The last component says whether it has terminated. -/
def run (ord : HashOrder) (closed : Bool) (batches : List (List EngineCommand))
    (core : MatchingCore) : Exec (Served × Bool) :=
  CommandLoop.loop EngineCommand.isShutdown (answer ord) closed batches (core, [])

/-- Commands processed and answered in a row, with no channel in between. -/
def serve (ord : HashOrder) (commands : List EngineCommand) (core : MatchingCore) : Exec Served :=
  commands.foldlM (answer ord) (core, [])

/-- The commands sent before the first `Shutdown`. -/
def beforeShutdown (commands : List EngineCommand) : List EngineCommand :=
  CommandLoop.beforeStop EngineCommand.isShutdown commands

section Run

variable {ord : HashOrder} {closed : Bool} {commands : List EngineCommand}
  {batches : List (List EngineCommand)} {core core' : MatchingCore} {served served' : Served}
  {cmd : EngineCommand}

/-- A `Shutdown` that is processed changes nothing and has no reply. -/
theorem answer_shutdown (h : cmd.isShutdown = true) : answer ord served cmd = pure served := by
  cases cmd with
  | shutdown => simp [answer, processCommand]
  | _ => cases h

/-- Every other command is answered. -/
theorem processCommand_reply {reply : Option EngineReply}
    (h : processCommand ord core cmd = .ok (reply, core')) :
    reply.isSome = !cmd.isShutdown := by
  cases cmd with
  | placeOrder | updateLeverage | processFunding | processLiquidations | checkTriggers
  | getAllMidPrices =>
    obtain ⟨done, -, h⟩ := bind_inv h
    obtain ⟨rfl, -⟩ := pair_inv h
    rfl
  | getOrderbook marketId depth =>
    simp only [processCommand] at h
    split at h
    · obtain ⟨rfl, -⟩ := pair_inv h
      rfl
    · obtain ⟨snapshot, -, h⟩ := bind_inv h
      obtain ⟨rfl, -⟩ := pair_inv h
      rfl
  | _ =>
    obtain ⟨rfl, -⟩ := pair_inv h
    rfl

/-- **Step lemma.** One more reply, to the command that was processed. -/
theorem answer_log (h : answer ord served cmd = .ok served') :
    served'.2.map Prod.fst = served.2.map Prod.fst ++ [cmd].filter fun c => !c.isShutdown := by
  obtain ⟨⟨reply, core⟩, hdone, h⟩ := bind_inv h
  obtain rfl := pure_inv h
  have hreply := processCommand_reply hdone
  cases hcmd : cmd.isShutdown with
  | true =>
    rw [hcmd] at hreply
    obtain rfl : reply = none := by simpa using hreply
    simp [hcmd]
  | false =>
    rw [hcmd] at hreply
    obtain ⟨r, rfl⟩ := Option.isSome_iff_exists.mp hreply
    simp [hcmd]

/-- **Run lemma.** The replies are those to the commands processed, in their order. -/
theorem foldlM_log (h : commands.foldlM (answer ord) served = .ok served') :
    served'.2.map Prod.fst = served.2.map Prod.fst ++
      commands.filter fun c => !c.isShutdown := by
  induction commands generalizing served with
  | nil =>
    obtain rfl := foldlM_nil_eq_ok.mp h
    simp
  | cons cmd rest ih =>
    obtain ⟨next, hnext, h⟩ := foldlM_cons_eq_ok.mp h
    rw [ih h, answer_log hnext, List.append_assoc, ← List.filter_append]
    rfl

/-- What the loop does: it processes what it takes. -/
theorem run_eq_ok {ended : Bool} : run ord closed batches core = .ok (served, ended) ↔
    serve ord ((CommandLoop.taken EngineCommand.isShutdown batches).filter
      fun c => !c.isShutdown) core = .ok served ∧
    CommandLoop.ends EngineCommand.isShutdown closed batches = ended := by
  unfold run serve
  rw [CommandLoop.loop_eq, CommandLoop.foldlM_filter EngineCommand.isShutdown
    fun s c hc => answer_shutdown hc]
  simp only [bind_eq_ok, pure_eq_ok, Prod.mk.injEq]
  constructor
  · rintro ⟨s, hs, hsv, hended⟩
    exact ⟨hsv ▸ hs, hended⟩
  · rintro ⟨hs, hended⟩
    exact ⟨served, hs, rfl, hended⟩

end Run

/-- **The matching thread.** Whatever the draining loop makes of the commands sent: it applies
those sent before the first `Shutdown`, each once and in order, answers each of them, applies no
other, and terminates, exactly when none of them halts and the `Shutdown` is taken promptly. -/
theorem run_serves_iff {ord : HashOrder} {closed : Bool} {commands : List EngineCommand}
    {batches : List (List EngineCommand)} {core : MatchingCore}
    (hdrained : Drained commands batches) :
    (∃ served, run ord closed batches core = .ok (served, true) ∧
      serve ord (beforeShutdown commands) core = .ok served ∧
      served.2.map Prod.fst = beforeShutdown commands) ↔
    (∃ served, serve ord (beforeShutdown commands) core = .ok served) ∧
      CommandLoop.Prompt EngineCommand.isShutdown closed batches := by
  have hbefore : beforeShutdown commands =
      CommandLoop.beforeStop EngineCommand.isShutdown batches.flatten := by
    rw [hdrained.flatten]
    rfl
  rw [← CommandLoop.prompt_iff, ← hbefore]
  constructor
  · intro ⟨served, hrun, hserve, hlog⟩
    obtain ⟨htaken, hends⟩ := run_eq_ok.mp hrun
    have hlog' := foldlM_log htaken
    simp only [List.filter_filter, Bool.and_self, List.map_nil, List.nil_append] at hlog'
    exact ⟨⟨served, hserve⟩, hlog'.symm.trans hlog, hends⟩
  · intro ⟨⟨served, hserve⟩, htaken, hends⟩
    refine ⟨served, run_eq_ok.mpr ⟨htaken ▸ hserve, hends⟩, hserve, ?_⟩
    have hlog := foldlM_log hserve
    have hnone : (beforeShutdown commands).filter (fun c => !c.isShutdown) =
        beforeShutdown commands := by
      rw [← htaken, List.filter_filter]
      simp
    rw [hlog, hnone]
    rfl

/-- Two changes of leverage in the BTC market, with a `Shutdown` in between. -/
def leverageCommands : List EngineCommand :=
  [.updateLeverage 1 0 20, .shutdown, .updateLeverage 1 0 30]

/-- A run of these on a fresh BTC engine. -/
def leverageCommandsRun (batches : List (List EngineCommand)) :
    Exec (MatchingCore × Served × Bool) := do
  let e ← Engine.btcEngine none
  let done ← run .sorted false batches (new e)
  return (new e, done)

theorem leverageCommandsRun_eq_ok {batches : List (List EngineCommand)} {core : MatchingCore}
    {done : Served × Bool} (h : leverageCommandsRun batches = .ok (core, done)) :
    run .sorted false batches core = .ok done := by
  obtain ⟨e, -, h⟩ := bind_inv h
  obtain ⟨done', hdone, h⟩ := bind_inv h
  obtain ⟨rfl, rfl⟩ := pair_inv h
  exact hdone

/-- The `Shutdown` comes in a batch of its own: the second change is not applied. -/
theorem run_serves_alone : ∃ (core : MatchingCore) (served : Served),
    run .sorted false [[.updateLeverage 1 0 20], [.shutdown], [.updateLeverage 1 0 30]] core =
      .ok (served, true) ∧
    served.2.map Prod.fst = [.updateLeverage 1 0 20] ∧
    served.1.engine.state.getLeverage 1 0 = 20 := by
  obtain ⟨⟨core, done⟩, hrun, htest⟩ := exists_of_test
    (x := leverageCommandsRun [[.updateLeverage 1 0 20], [.shutdown], [.updateLeverage 1 0 30]])
    (p := fun x => decide (x.2.1.1.engine.state.getLeverage 1 0 = 20)) (by decide +kernel)
  have hleverage := of_decide_eq_true htest
  have hrun := leverageCommandsRun_eq_ok hrun
  have hdrained : Drained leverageCommands
      [[.updateLeverage 1 0 20], [.shutdown], [.updateLeverage 1 0 30]] :=
    ⟨rfl, by decide, by decide⟩
  have hserve := (run_eq_ok.mp hrun).1
  obtain ⟨served, hserved, -, hlog⟩ := (run_serves_iff hdrained).mpr
    ⟨⟨done.1, hserve⟩, .inr (.inl ⟨by decide, .inl rfl⟩)⟩
  obtain rfl := ok_unique hserved hrun
  exact ⟨core, served, hserved, hlog, hleverage⟩

/-- The three commands come in one batch: the second change is applied behind the `Shutdown`,
and the loop waits for more. -/
theorem run_passes_shutdown : ∃ (core : MatchingCore) (served : Served),
    Drained leverageCommands [leverageCommands] ∧
    run .sorted false [leverageCommands] core = .ok (served, false) ∧
    beforeShutdown leverageCommands = [.updateLeverage 1 0 20] ∧
    served.2.map Prod.fst = [.updateLeverage 1 0 20, .updateLeverage 1 0 30] ∧
    served.1.engine.state.getLeverage 1 0 = 30 := by
  obtain ⟨⟨core, served, ended⟩, hrun, htest⟩ := exists_of_test
    (x := leverageCommandsRun [leverageCommands])
    (p := fun x => decide (x.2.2 = false ∧
      x.2.1.2.map Prod.fst = [.updateLeverage 1 0 20, .updateLeverage 1 0 30] ∧
      x.2.1.1.engine.state.getLeverage 1 0 = 30)) (by decide +kernel)
  obtain ⟨hended, hlog, hleverage⟩ := of_decide_eq_true htest
  dsimp only at hended
  subst hended
  exact ⟨core, served, ⟨rfl, by decide, by decide⟩, leverageCommandsRun_eq_ok hrun, by decide,
    hlog, hleverage⟩

end MatchingCore

end Hypercore
