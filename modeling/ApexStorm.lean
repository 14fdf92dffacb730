import ApexStorm.ByteArray.Refinement
import ApexStorm.ByteArray.RoundTrip
import ApexStorm.ByteArray.Varint
import ApexStorm.ByteArray.Views
import ApexStorm.ByteArray.FileInput
import ApexStorm.ByteArray.FileOutput
import ApexStorm.ByteArray.Decode
import ApexStorm.ByteArray.Formats
import ApexStorm.ByteArray.Pointers
import ApexStorm.Stream.FixSize
import ApexStorm.Stream.Socket
import ApexStorm.Scheduler.Exclusion
import ApexStorm.Scheduler.Conservation
import ApexStorm.Scheduler.Quiescence
import ApexStorm.Scheduler.Stop
import ApexStorm.Scheduler.LifeCycle
import ApexStorm.Timer.SetInvariant
import ApexStorm.Timer.Front
import ApexStorm.Timer.Expiry
import ApexStorm.Timer.Start
import ApexStorm.Timer.Control
import ApexStorm.IOManager.Dispatch
import ApexStorm.IOManager.Interest
import ApexStorm.IOManager.Wakeup
import ApexStorm.IOManager.Contexts
import ApexStorm.IOManager.Timeout
import ApexStorm.Hook.Transparency
import ApexStorm.Hook.FdTable
import ApexStorm.Hook.Sharing
import ApexStorm.Hook.Kernel
import ApexStorm.Hook.Nonblock
import ApexStorm.Hook.Sleep
import ApexStorm.Hook.SocketTimeout
import ApexStorm.Hook.Blocking
import ApexStorm.Hook.Punctual
import ApexStorm.Hook.Connecting
import ApexStorm.Hook.Answers
import ApexStorm.Address.Subnet
import ApexStorm.Address.Lookup
import ApexStorm.Address.Text
import ApexStorm.Address.Order
import ApexStorm.Http.Split
import ApexStorm.Http.Body
import ApexStorm.Http.Pipeline
import ApexStorm.Http.Server
import ApexStorm.Http.Print
import ApexStorm.Http.Method
import ApexStorm.Http.Framing
import ApexStorm.Http.Length
import ApexStorm.Http.ClientChunk
import ApexStorm.Http.ClientPrint
import ApexStorm.Log.Formatter
import ApexStorm.Log.Logger
import ApexStorm.Log.Reload
import ApexStorm.Log.FileAppender
import ApexStorm.Log.Pattern
import ApexStorm.Log.Attach
import ApexStorm.Log.Cast
import ApexStorm.Config.Load
import ApexStorm.TcpServer.Bind
import ApexStorm.Fiber.Refinement
import ApexStorm.Sync.Guard
import ApexStorm.Sync.Thread
import ApexStorm.Http.Exchange
import ApexStorm.Http.ClientGrammar
