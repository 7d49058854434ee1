import Endurox.SvcTable
import Endurox.TmsRecovery
import Endurox.NetPayload
import Endurox.TxCalls
import Endurox.ConvControl
import Endurox.ConvConnect
import Endurox.ConvBuffers
import Endurox.TpReplies
import Endurox.FpAlloc
import Endurox.TmqKeys
import Endurox.TmqRecover
import Endurox.DdrCall
import Endurox.BridgeRefresh
import Endurox.TypedBufAlloc
import Endurox.ViewCmp
import Endurox.ViewRoundTrip
import Endurox.CacheSync
import Endurox.CacheSelect
import Endurox.CacheInval
import Endurox.ServiceSafe
import Endurox.ServiceTran
import Endurox.EventReach
import Endurox.EventRace
import Endurox.IniCfgLookup
import Endurox.ExprMissing
import Endurox.Multibuf
import Endurox.NetInstall
import Endurox.NetUnknown
import Endurox.TmsLocks
import Endurox.TmqLocks
import Endurox.TmqRetry
import Endurox.JsonUbf
