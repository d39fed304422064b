import Hypercore.Engine.Determinism
import Hypercore.Engine.ReduceOnly
import Hypercore.Engine.ImpactPrice
import Hypercore.Engine.TriggerRun
import Hypercore.HyperBft.Speculation
import Hypercore.Engine.SnapshotRun
import Hypercore.Gateway.Signer
import Hypercore.Persistence.StateSync
import Hypercore.Contracts.Solvency
import Hypercore.Contracts.ValidatorUpdates
import Hypercore.Spot.Deployment
import Hypercore.Gateway.StateRoot
import Hypercore.Spot.Alike
import Hypercore.Engine.RealizedPnl
import Hypercore.Engine.LiquidationProgress
import Hypercore.Engine.OrderMargin
import Hypercore.Engine.MatchTermination
import Hypercore.Persistence.DecimalSerde
import Hypercore.Chain.AttestationOrder
import Hypercore.HyperBft.Collector
import Hypercore.Chain.ValidatorSet
import Hypercore.Gateway.BalanceProof
import Hypercore.Chain.ProofBytes
import Hypercore.Chain.AppHash
import Hypercore.Chain.ContractAddress
import Hypercore.Chain.Recovery
import Hypercore.Evm.ActionQueue
import Hypercore.Chain.EvmRoot
import Hypercore.Chain.EvmActions
import Hypercore.Gateway.Admission
import Hypercore.Evm.Logs
import Hypercore.Engine.MarkPrice
import Hypercore.Engine.BatchPnl
import Hypercore.Engine.LiquidationPrice
import Hypercore.Gateway.Candles
import Hypercore.Gateway.OrderStatuses
import Hypercore.Chain.Supply
import Hypercore.Chain.Failure
import Hypercore.Gateway.BinaryProtocol
