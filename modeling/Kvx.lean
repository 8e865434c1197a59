import Kvx.PageAccounting
import Kvx.Growth
import Kvx.Representation
import Kvx.ChainLifetime
import Kvx.MigrationInvisible
import Kvx.StoreRequest
import Kvx.ConnFifo
import Kvx.ConnSendFifo
import Kvx.Reader
import Kvx.ProtocolInside
import Kvx.SlabBook
import Kvx.ProtocolKeys
import Kvx.ProtocolCompletion
import Kvx.SlabSizes
import Kvx.SlabPeak
import Kvx.ChainAgreement
import Kvx.ConnLimits
import Kvx.ProtocolReply
import Kvx.ListenPath
import Kvx.FlagOccurrence
import Kvx.ProtocolNumber
import Kvx.ConnGrow
import Kvx.SlabSearch
import Kvx.KvThreads
import Kvx.KvDestroy
import Kvx.Netpoll
import Kvx.MigrationCost
import Kvx.DifferentialTest
import Kvx.KvBenchThreads
import Kvx.WorkloadChecks
import Kvx.SlabIntegrity
import Kvx.GrowthSchedule
