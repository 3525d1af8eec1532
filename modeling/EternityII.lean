import EternityII.App.AddBatch
import EternityII.App.AnalysedBijection
import EternityII.App.Autobackup
import EternityII.App.ChildDeath
import EternityII.App.ClientHello
import EternityII.App.ControlRegistry
import EternityII.App.ForkGate
import EternityII.App.ForkOrchestrator
import EternityII.App.KnownClientsRuns
import EternityII.App.ServerConfig
import EternityII.App.SpawnForks
import EternityII.Expand.Levels
import EternityII.Net.JsonCommand
import EternityII.Possibility.GpuPruner
import EternityII.Possibility.JsonRoundTrip
import EternityII.Search.DelegateToServer
import EternityII.Search.FastPath
import EternityII.Search.PendingDepth
import EternityII.Search.PruneBatch
import EternityII.Sort.BackupSort
import EternityII.Spill.CompactMoves
import EternityII.Spill.ImportBody
import EternityII.Spill.ImportRuns
import EternityII.Spill.Restore
import EternityII.Spill.TierLinks
import EternityII.Stock.CheckDuplicate
import EternityII.Stock.PacketOrder
import EternityII.Stock.StockRate
import EternityII.Ui.RemoteCommands
