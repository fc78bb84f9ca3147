import Axyl.Consensus.Pruning
import Axyl.Consensus.Restart
import Axyl.Consensus.Timestamps
import Axyl.Processor.Parking
import Axyl.Processor.BlockTime
import Axyl.Processor.Engine
import Axyl.Processor.Crash
import Axyl.Processor.AgreedData
import Axyl.Storage.FailedTxn
import Axyl.Storage.CrashPrefix
import Axyl.Storage.ColdReads
import Axyl.Storage.EpochStore
import Axyl.Primary.VoteCrash
import Axyl.Primary.CausalAcceptance
import Axyl.Worker.SealAhead
import Axyl.Worker.SeqRecovery
import Axyl.Worker.BatchSeq
import Axyl.Primary.DigestsKept
import Axyl.Primary.Requeue
import Axyl.Subscriber.EpochCut
import Axyl.StateSync.FollowerSafety
import Axyl.StateSync.CatchUpHeals
import Axyl.Processor.BlockGas
import Axyl.Processor.SeqOverflow
import Axyl.Primary.CertificateUnique
import Axyl.Primary.FetchComplete
import Axyl.Primary.QuorumParents
import Axyl.Contracts.PoolSolvency
import Axyl.Contracts.PoolCommission
import Axyl.Contracts.PoolSlash
import Axyl.Contracts.RewardExclusion
import Axyl.NativeErc20.Supply
import Axyl.NativeErc20.Reference
import Axyl.NativeErc20.Authorization
import Axyl.Contracts.RegistrySolvency
import Axyl.Contracts.RegistryKeys
import Axyl.Contracts.RegistryCommittees
import Axyl.Contracts.EpochClose
import Axyl.Contracts.CommitteeShuffle
import Axyl.Worker.InFlight
import Axyl.Contracts.SlashSplit
import Axyl.Storage.InFlightCount
