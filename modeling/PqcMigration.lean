import PqcMigration.LivePath.Delivery
import PqcMigration.App.EmptyValueRace
import PqcMigration.App.EmptyValueFaults
import PqcMigration.App.Ante
import PqcMigration.LightClient.CommitteeRoot
import PqcMigration.Devnet.Reject
import PqcMigration.Devnet.NonceGaps
import PqcMigration.Devnet.ClientResume
import PqcMigration.BatchScaling.Checkpoint
import PqcMigration.BatchScaling.UpdateCount
import PqcMigration.MigrationCost.BuildRecvMsgs
import PqcMigration.MigrationCost.ChunkSize
import PqcMigration.MigrationCost.PreparedState
import PqcMigration.MigrationCost.AckSenders
import PqcMigration.MigrationCost.MeasureData
import PqcMigration.MigrationCost.AckGuard
import PqcMigration.Devnet.UpdateEthClient
import PqcMigration.Devnet.ConfigAgree
import PqcMigration.Devnet.DevnetCfg
import PqcMigration.Devnet.ProcessTree
import PqcMigration.MigrationCost.Bech32Errors
import PqcMigration.MigrationCost.SubmitMigrations
import PqcMigration.LoadGen.Order
import PqcMigration.Sweeps.Resume
import PqcMigration.BatchScaling.RelayCeiling
import PqcMigration.MigrationCost.LimitsAgree
import PqcMigration.MigrationCost.PacketSlices
import PqcMigration.BatchScaling.WindowNumbers
import PqcMigration.App.Export
import PqcMigration.Tools.BlockPacking
import PqcMigration.Tools.SampleSeries
import PqcMigration.Tools.TxMix
import PqcMigration.Throughput.Saturation
import PqcMigration.BatchScaling.Counters
import PqcMigration.MigrationCost.AccountPool
import PqcMigration.LoadGen.Exhaustion
import PqcMigration.Benchmarks.Agreement
import PqcMigration.BatchScaling.Latency
import PqcMigration.LivePath.Completion
import PqcMigration.Devnet.ProofLegs
