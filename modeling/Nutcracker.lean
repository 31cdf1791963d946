import Nutcracker.Memcache.Soundness
import Nutcracker.Redis.ReplyMbufs
import Nutcracker.Memcache.Mbufs
import Nutcracker.Server.Ejection
import Nutcracker.Stats.Aggregate
import Nutcracker.Message.Replies
import Nutcracker.Server.Session
import Nutcracker.Proxy.Shortage
import Nutcracker.Proxy.Pairing
import Nutcracker.Proxy.Gauges
import Nutcracker.Redis.Header
import Nutcracker.Protocol.Progress
import Nutcracker.Server.Ring
import Nutcracker.Server.HashTag
import Nutcracker.Server.HostNames
import Nutcracker.Server.Allocation
import Nutcracker.Conf.ServerLine
import Nutcracker.Server.Descriptors
import Nutcracker.Conf.Parse
import Nutcracker.Stats.Report
import Nutcracker.Proxy.Timeout
import Nutcracker.Server.Static
import Nutcracker.Redis.Pipeline
import Nutcracker.Redis.Split
