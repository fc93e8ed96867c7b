import RedisLike.Command.StringCmd
import RedisLike.Command.HashCmd
import RedisLike.Command.ListCmd
import RedisLike.Command.SetCmd
import RedisLike.Command.ZSetCmd

/-!
# RedisLike.Command.Table

The routing table: the commands the constructor of `RedisServer` registers,
and `CommandRouter::Execute`.
-/

namespace RedisLike

/-- `PING`. -/
def pingCmd : CmdHandler := fun ctx =>
  (if ctx.cmd.args.isEmpty then RespCodec.pong else RespCodec.bulkString (ctx.arg 0), ctx.db)

/-- `COMMAND`. -/
def commandCmd : CmdHandler := fun ctx => (RespCodec.emptyArray, ctx.db)

/-- `QUIT`. -/
def quitCmd : CmdHandler := fun ctx => (RespCodec.ok, ctx.db)

/-- `table_`. -/
def commandTable : List (Bytes × CmdHandler) :=
  [ (ascii "PING", pingCmd), (ascii "COMMAND", commandCmd), (ascii "QUIT", quitCmd),
    (ascii "SET", setCmd), (ascii "GET", getCmd),
    (ascii "DEL", delCmd), (ascii "EXISTS", existsCmd), (ascii "EXPIRE", expireCmd),
    (ascii "TTL", ttlCmd), (ascii "PEXPIRE", pExpireCmd), (ascii "PTTL", pTtlCmd),
    (ascii "TYPE", typeCmd), (ascii "KEYS", keysCmd),
    (ascii "HSET", hSetCmd), (ascii "HGET", hGetCmd), (ascii "HDEL", hDelCmd),
    (ascii "HEXISTS", hExistsCmd), (ascii "HKEYS", hKeysCmd), (ascii "HVALS", hValsCmd),
    (ascii "HGETALL", hGetAllCmd), (ascii "HLEN", hLenCmd), (ascii "HSTRLEN", hStrLenCmd),
    (ascii "LPUSH", lPushCmd), (ascii "RPUSH", rPushCmd), (ascii "LPOP", lPopCmd),
    (ascii "RPOP", rPopCmd), (ascii "LLEN", lLenCmd), (ascii "LRANGE", lRangeCmd),
    (ascii "LINDEX", lIndexCmd),
    (ascii "SADD", sAddCmd), (ascii "SREM", sRemCmd), (ascii "SISMEMBER", sIsMemberCmd),
    (ascii "SMEMBERS", sMembersCmd), (ascii "SCARD", sCardCmd), (ascii "SPOP", sPopCmd),
    (ascii "ZADD", zAddCmd), (ascii "ZREM", zRemCmd), (ascii "ZSCORE", zScoreCmd),
    (ascii "ZRANK", zRankCmd), (ascii "ZREVRANK", zRevRankCmd), (ascii "ZRANGE", zRangeCmd),
    (ascii "ZREVRANGE", zRevRangeCmd), (ascii "ZCARD", zCardCmd) ]

/-- The entry of `table_` for a name. -/
def findHandler (name : Bytes) : Option CmdHandler := commandTable.lookup name

/-- `CommandRouter::Exists`. -/
def commandExists (name : Bytes) : Bool := (findHandler name).isSome

/-- The reply to a name that is not registered. -/
def unknownCommand (name : Bytes) : Bytes :=
  RespCodec.error (ascii "ERR unknown command '" ++ name ++ ascii "'")

/-- `CommandRouter::Execute`. -/
def execute : CmdHandler := fun ctx =>
  match findHandler (normalize ctx.cmd.name) with
  | none => (unknownCommand ctx.cmd.name, ctx.db)
  | some handler => handler ctx

/-- What a table has under a name is one of its entries. -/
theorem mem_of_lookup_eq_some {α : Type} {table : List (Bytes × α)} {name : Bytes} {a : α}
    (h : table.lookup name = some a) : (name, a) ∈ table := by
  obtain ⟨l, r, hlr, -⟩ := List.lookup_eq_some_iff.mp h
  rw [hlr]
  simp

theorem execute_of_not_found {ctx : CmdContext} (h : findHandler (normalize ctx.cmd.name) = none) :
    execute ctx = (unknownCommand ctx.cmd.name, ctx.db) := by
  unfold execute
  rw [h]

theorem execute_of_findHandler {ctx : CmdContext} {handler : CmdHandler}
    (h : findHandler (normalize ctx.cmd.name) = some handler) : execute ctx = handler ctx := by
  unfold execute
  rw [h]

end RedisLike
