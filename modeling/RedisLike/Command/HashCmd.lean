import RedisLike.Command.Router

/-!
# RedisLike.Command.HashCmd

The handlers of `hash_cmd.cpp`.
-/

namespace RedisLike

/-- `GetHash` and what a reading command makes of it. -/
def readHash (ctx : CmdContext) (absent : Bytes) (present : RedisHash → Bytes) : Bytes × Dict :=
  readObject ValueVariant.asHash ctx (ctx.arg 0) absent present

/-- The loop of `HSetCmd` over the field-value pairs. -/
def hSetLoop : List Bytes → RedisHash → Nat → Nat × RedisHash
  | field :: val :: rest, hash, added =>
    hSetLoop rest (hash.insert field val)
      (if (hash.lookup field).isNone then added + 1 else added)
  | _, hash, added => (added, hash)

/-- `HSetCmd`. -/
def hSetCmd : CmdHandler := fun ctx =>
  if ctx.cmd.args.length < 3 ∨ ctx.cmd.args.length % 2 ≠ 1 then
    (RespCodec.error (ascii "ERR wrong number of arguments for 'HSET'"), ctx.db)
  else
    let found := getOrCreateObject ValueVariant.asHash RedisObject.createHash ctx (ctx.arg 0)
    orReply found wrongType fun obj hash db =>
      let r := hSetLoop (ctx.cmd.args.drop 1) hash 0
      (RespCodec.integer r.1, db.set (ctx.arg 0) (obj.withValue (.hash r.2)))

/-- `HGetCmd`. -/
def hGetCmd : CmdHandler := fun ctx =>
  if ctx.cmd.args.length < 2 then
    (RespCodec.error (ascii "ERR wrong number of arguments for 'HGET'"), ctx.db)
  else
    readHash ctx RespCodec.nullBulkString fun hash =>
      match hash.lookup (ctx.arg 1) with
      | none => RespCodec.nullBulkString
      | some v => RespCodec.bulkString v

/-- The loop of `HDelCmd`. -/
def hDelLoop : List Bytes → RedisHash → Nat → Nat × RedisHash
  | [], hash, count => (count, hash)
  | field :: rest, hash, count =>
    hDelLoop rest (hash.erase field) (if (hash.lookup field).isSome then count + 1 else count)

/-- `HDelCmd`. -/
def hDelCmd : CmdHandler := fun ctx =>
  if ctx.cmd.args.length < 2 then
    (RespCodec.error (ascii "ERR wrong number of arguments for 'HDEL'"), ctx.db)
  else
    let found := getObject ValueVariant.asHash ctx (ctx.arg 0)
    orReply found (RespCodec.integer 0) fun obj hash db =>
      let r := hDelLoop (ctx.cmd.args.drop 1) hash 0
      let db := db.set (ctx.arg 0) (obj.withValue (.hash r.2))
      (RespCodec.integer r.1, if r.2.empty then (db.del (ctx.arg 0)).2 else db)

/-- `HExistsCmd`. -/
def hExistsCmd : CmdHandler := fun ctx =>
  if ctx.cmd.args.length < 2 then
    (RespCodec.error (ascii "ERR wrong number of arguments for 'HEXISTS'"), ctx.db)
  else
    readHash ctx (RespCodec.integer 0) fun hash =>
      boolReply (hash.lookup (ctx.arg 1)).isSome

/-- `HKeysCmd`. -/
def hKeysCmd : CmdHandler := fun ctx =>
  if ctx.cmd.args.isEmpty then
    (RespCodec.error (ascii "ERR wrong number of arguments for 'HKEYS'"), ctx.db)
  else readHash ctx RespCodec.emptyArray fun hash => bulkArray (hash.pairs.map Prod.fst)

/-- `HValsCmd`. -/
def hValsCmd : CmdHandler := fun ctx =>
  if ctx.cmd.args.isEmpty then
    (RespCodec.error (ascii "ERR wrong number of arguments for 'HVALS'"), ctx.db)
  else readHash ctx RespCodec.emptyArray fun hash => bulkArray (hash.pairs.map Prod.snd)

/-- `HGetAllCmd`. -/
def hGetAllCmd : CmdHandler := fun ctx =>
  if ctx.cmd.args.isEmpty then
    (RespCodec.error (ascii "ERR wrong number of arguments for 'HGETALL'"), ctx.db)
  else
    readHash ctx RespCodec.emptyArray fun hash =>
      bulkArray (hash.pairs.flatMap fun kv => [kv.1, kv.2])

/-- `HLenCmd`. -/
def hLenCmd : CmdHandler := fun ctx =>
  if ctx.cmd.args.isEmpty then
    (RespCodec.error (ascii "ERR wrong number of arguments for 'HLEN'"), ctx.db)
  else readHash ctx (RespCodec.integer 0) fun hash => RespCodec.integer hash.size

/-- `HStrLenCmd`. -/
def hStrLenCmd : CmdHandler := fun ctx =>
  if ctx.cmd.args.length < 2 then
    (RespCodec.error (ascii "ERR wrong number of arguments for 'HSTRLEN'"), ctx.db)
  else
    readHash ctx (RespCodec.integer 0) fun hash =>
      match hash.lookup (ctx.arg 1) with
      | none => RespCodec.integer 0
      | some v => RespCodec.integer v.length

end RedisLike
