import Hiper.Lib.Splice
import Hiper.StringUtil.Url
import Hiper.ByteArray.Records
import Hiper.ByteArray.RoundTrip
import Hiper.ByteArray.Positional
import Hiper.ByteArray.Files
import Hiper.ByteArray.FailedReads
import Hiper.Timer.LifeCycle
import Hiper.Timer.Notify
import Hiper.IOManager.Armed
import Hiper.IOManager.Account
import Hiper.Scheduler.Stranded
import Hiper.Scheduler.Exclusive
import Hiper.Scheduler.Quiescent
import Hiper.Hook.Timeout
import Hiper.Http.Form
import Hiper.Http.Dump
import Hiper.Http.Session
import Hiper.Socket.LifeCycle
import Hiper.Stream.Transfer
import Hiper.Config.Listeners
import Hiper.IOManager.Table
import Hiper.Hook.Nonblock
import Hiper.Log.Reconfigure
import Hiper.Timer.Expiry
import Hiper.Timer.OrderedSet
import Hiper.Manager.IdleWait
import Hiper.Hook.Sleep
import Hiper.Mutex.Guard
import Hiper.Http.Headers
import Hiper.Http.Cookie
import Hiper.Http.Reemit
import Hiper.Http.ReceiveWindow
import Hiper.Hook.FdTable
import Hiper.Scheduler.Pinned
import Hiper.Hook.Blocking
import Hiper.Address.Text
import Hiper.Address.Prefix
import Hiper.Address.Lookup
import Hiper.Config.Load
import Hiper.Config.FromString
import Hiper.Log.Codec
import Hiper.Log.Escape
import Hiper.Log.Attach
import Hiper.ByteArray.Zigzag
import Hiper.Env.Init
import Hiper.Socket.Timeout
import Hiper.FSUtil.Rm
import Hiper.Http.RequestRoundTrip
import Hiper.Http.RequestFraming
import Hiper.IOManager.Interest
import Hiper.Http.ResponseRoundTrip
import Hiper.Fiber.Switch
