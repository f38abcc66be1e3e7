import Domq.Lib.Prog
import Domq.Lib.Interleave
import Domq.Lib.Text
import Domq.Redis.Store
import Domq.Mq.Keys
import Domq.Mq.State
import Domq.Mq.Mgr
import Domq.Mq.System
import Domq.Mq.Pipeline
import Domq.Lib.Recency
import Domq.Mq.Session
import Domq.Mq.Expiry
import Domq.Mq.Protocol
import Domq.Mq.Cache
import Domq.Mq.Fifo
import Domq.Mq.Subscribe
import Domq.Mq.Create
import Domq.Mq.Reload
import Domq.Base.MemBlock
import Domq.Lib.Chunks
import Domq.Mq.Pop
import Domq.Netmgr.Frame
import Domq.Mq.Connector
import Domq.Mq.Message
import Domq.Mq.Processor
import Domq.Mq.Reply
import Domq.Mq.JsonRpc
import Domq.Lib.Machine
import Domq.Netmgr.Line
import Domq.Netmgr.Threads
import Domq.Netmgr.Connections
import Domq.Mq.Order
import Domq.Mq.PubSub.Agreed
import Domq.Mq.PubSub.Commands
import Domq.Mq.PubSub.Sections
import Domq.Mq.PubSub
import Domq.Netmgr.Output
import Domq.Netmgr.Capacity
import Domq.Mq.Direct
import Domq.Mq.Acknowledge
import Domq.Mq.LoadPipeline
import Domq.Mq.Load
import Domq.Mq.LoadRedis
import Domq.Mq.Sequential
import Domq.Mq.Registry
import Domq.Mq.Mirror
import Domq.Mq.Limit
import Domq.Base.Escape
import Domq.Lib.Search
import Domq.Netmgr.RpcNames
import Domq.Netmgr.Encode
import Domq.Netmgr.Service
import Domq.Netmgr.Correlation
import Domq.Mq.Admin
import Domq.Mq.Fields
import Domq.Lib.Latest
import Domq.Mq.Index
import Domq.Netmgr.Watch
import Domq.Netmgr.Delivery
import Domq.Lib.Bounded
import Domq.Lib.Memory
import Domq.Lib.Simulation
import Domq.Base.Pointers
import Domq.Base.Refinement
import Domq.Lib.Handover
import Domq.Base.ObjectQueue
import Domq.Mq.Code
import Domq.Lib.Loop
import Domq.Base.HexDump
import Domq.Lib.Json
import Domq.Jsoncpp.Token
import Domq.Jsoncpp.Reader
import Domq.Jsoncpp.Scalar
import Domq.Jsoncpp.Accept
import Domq.Jsoncpp.Safety
import Domq.Jsoncpp.Writer
import Domq.Mq.RequestText
import Domq.Mq.ResponseText
import Domq.Mq.Broadcast
import Domq.Mq.Supervisor
import Domq.Lib.Wrap
import Domq.Mq.Journey
import Domq.Mq.Restart
import Domq.Lib.Atomic
import Domq.Mq.Mailbox
