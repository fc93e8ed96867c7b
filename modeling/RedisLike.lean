import RedisLike.Bytes
import RedisLike.Double
import RedisLike.Numeral
import RedisLike.Double.Integer
import RedisLike.Double.Digits
import RedisLike.Double.Text
import RedisLike.Double.ReadBack
import RedisLike.Lib.Chain
import RedisLike.Lib.Unordered
import RedisLike.SkipList.Basic
import RedisLike.SkipList.Invariant
import RedisLike.SkipList.Insert
import RedisLike.SkipList.Delete
import RedisLike.SkipList.Refine
import RedisLike.Lib.Scanner
import RedisLike.Lib.Loop
import RedisLike.Resp.Codec
import RedisLike.Resp.Parser
import RedisLike.Resp.FeedBounds
import RedisLike.Resp.RoundTrip
import RedisLike.Resp.Wedged
import RedisLike.Resp.Reply
import RedisLike.Resp.Refused
import RedisLike.Resp.Framing
import RedisLike.Lib.Padding
import RedisLike.Lib.InputStream
import RedisLike.Lib.LastWriter
import RedisLike.Object
import RedisLike.Contents
import RedisLike.Expire
import RedisLike.Command.Router
import RedisLike.Command.StringCmd
import RedisLike.Command.HashCmd
import RedisLike.Command.ListCmd
import RedisLike.Command.SetCmd
import RedisLike.Command.ZSetCmd
import RedisLike.Command.Table
import RedisLike.Command.Replies
import RedisLike.Command.Local
import RedisLike.Command.Actions
import RedisLike.Command.Expiry
import RedisLike.Command.Atomic
import RedisLike.Command.Effect
import RedisLike.Command.Cells
import RedisLike.Command.Typed
import RedisLike.Command.Congruence
import RedisLike.Command.Again
import RedisLike.Storage.Rdb
import RedisLike.Storage.RdbRecord
import RedisLike.Storage.RdbTermination
import RedisLike.Storage.RdbLoop
import RedisLike.Storage.RdbCut
import RedisLike.Storage.RdbRoundTrip
import RedisLike.Storage.RdbTruncated
import RedisLike.Storage.RdbObject
import RedisLike.Storage.RdbClocks
import RedisLike.Storage.Aof
import RedisLike.Storage.Torn
import RedisLike.Server
import RedisLike.Server.Replies
import RedisLike.Server.EventLoop
import RedisLike.Server.Streams
import RedisLike.Server.Log
import RedisLike.Server.Replay
import RedisLike.Server.Restart
import RedisLike.Command.NonEmpty
import RedisLike.Server.NonEmpty
import RedisLike.Lib.Footprint
import RedisLike.Server.Footprint
import RedisLike.Command.Isolation
import RedisLike.Command.Deadline
import RedisLike.Command.SetGrammar
import RedisLike.Lib.Batch
import RedisLike.Command.Singles
import RedisLike.Command.Variadic
import RedisLike.Lib.Pool
import RedisLike.PeriodicCheck
import RedisLike.Server.Scores
import RedisLike.Server.RandomPops
import RedisLike.Command.RandomDraws
import RedisLike.Server.Rejected
import RedisLike.Lib.Wildcard
import RedisLike.Command.Glob
import RedisLike.Command.GlobBounds
import RedisLike.Command.Keys
import RedisLike.Lib.Slice
import RedisLike.Command.Ranges
import RedisLike.SkipList.Memory
import RedisLike.SkipList.Rank
import RedisLike.Server.Ranks
import RedisLike.Server.ShownScores
import RedisLike.Server.History
import RedisLike.Server.Tick
import RedisLike.Server.Serial
import RedisLike.Server.OpLog
import RedisLike.Server.Resumed
import RedisLike.Server.Recovery
import RedisLike.Server.Delivery
import RedisLike.Server.OnTime
import RedisLike.Lib.Journal
import RedisLike.Lib.Lease
import RedisLike.Server.Lease
import RedisLike.Server.Tenants
import RedisLike.Lib.Timed
import RedisLike.Lib.Trace
import RedisLike.Lib.Distinct
import RedisLike.Server.Objects
import RedisLike.Server.Objects.Hash
import RedisLike.Server.Objects.Set
import RedisLike.Server.Objects.SortedSet
import RedisLike.Server.Objects.String
import RedisLike.Server.Objects.List
