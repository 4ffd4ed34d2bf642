import SsLogger.ThreadSafeQueue
import SsLogger.ThreadPool.Construct
import SsLogger.ThreadPool.Model
import SsLogger.ThreadPool.Frame
import SsLogger.ThreadPool.Ring
import SsLogger.ThreadPool.Ledger
import SsLogger.ThreadPool.Wakeup
import SsLogger.ThreadPool.Completion
import SsLogger.ThreadPool.Teardown
import SsLogger.ThreadPool.TaskBag
import SsLogger.ThreadPool.Balancing
import SsLogger.ThreadPool.Drain
import SsLogger.ThreadPool.Shutdown
import SsLogger.Parser.Strtod
import SsLogger.Parser.JSON
import SsLogger.Parser.RoundTrip
import SsLogger.Parser.Members
import SsLogger.Parser.Lookup
import SsLogger.Parser.ServerConfig
import SsLogger.Base64
import SsLogger.Logger
