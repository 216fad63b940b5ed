import BoronDns.CacheCrash
import BoronDns.DenialSearch
import BoronDns.DenialUpdate
import BoronDns.DirectAnswer
import BoronDns.DirectPath
import BoronDns.DurableDelta
import BoronDns.ForcedTransfer
import BoronDns.HashLabels
import BoronDns.IncrementalTransfer
import BoronDns.IngestBudget
import BoronDns.NameParsing
import BoronDns.NameSet
import BoronDns.PersistentOrderIndex
import BoronDns.PlanAccounting
import BoronDns.RefreshQueue
import BoronDns.RequestContract
import BoronDns.SnapshotRebuild
import BoronDns.SnapshotResponse
import BoronDns.TransferRuns
import BoronDns.TsigContract
import BoronDns.TypeBitMaps
import BoronDns.DnsCookie
import BoronDns.UdpSendBatch
import BoronDns.ZoneSelection
