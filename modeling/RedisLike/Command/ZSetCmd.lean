import RedisLike.Command.Router

/-!
# RedisLike.Command.ZSetCmd

The handlers of `zset_cmd.cpp`.
-/

namespace RedisLike

/-- `GetZSet` and what a reading command makes of it. -/
def readZSet (ctx : CmdContext) (absent : Bytes) (present : SkipList → Bytes) : Bytes × Dict :=
  readObject ValueVariant.asZSet ctx (ctx.arg 0) absent present

/-- The loop of `ZAddCmd`: `none` when it returns at a score that is no number,
with what the list is by then.  Round `i` draws the height of its node. -/
def zAddLoop (rng : Nat → Nat → Nat) :
    List Bytes → Nat → SkipList → Nat → Option Nat × SkipList
  | score :: member :: rest, i, sl, added =>
    match parseDouble score with
    | none => (none, sl)
    | some score =>
      let existed := (sl.getScore member).isSome
      zAddLoop rng rest (i + 1) (sl.insert score member (randomLevel (rng i))).2
        (if existed then added else added + 1)
  | _, _, sl, added => (some added, sl)

/-- `ZAddCmd`. -/
def zAddCmd : CmdHandler := fun ctx =>
  if ctx.cmd.args.length < 3 ∨ ctx.cmd.args.length % 2 ≠ 1 then
    (RespCodec.error (ascii "ERR wrong number of arguments for 'ZADD'"), ctx.db)
  else
    let found := getOrCreateObject ValueVariant.asZSet RedisObject.createZSet ctx (ctx.arg 0)
    orReply found wrongType fun obj sl db =>
      let r := zAddLoop ctx.rng (ctx.cmd.args.drop 1) 0 sl 0
      let db := db.set (ctx.arg 0) (obj.withValue (.zset r.2))
      match r.1 with
      | none => (RespCodec.error (ascii "ERR value is not a valid float"), db)
      | some added => (RespCodec.integer added, db)

/-- The loop of `ZRemCmd`. -/
def zRemLoop : List Bytes → SkipList → Nat → Nat × SkipList
  | [], sl, removed => (removed, sl)
  | member :: rest, sl, removed =>
    let r := sl.delete member
    zRemLoop rest r.2 (if r.1 then removed + 1 else removed)

/-- `ZRemCmd`. -/
def zRemCmd : CmdHandler := fun ctx =>
  if ctx.cmd.args.length < 2 then
    (RespCodec.error (ascii "ERR wrong number of arguments for 'ZREM'"), ctx.db)
  else
    let found := getObject ValueVariant.asZSet ctx (ctx.arg 0)
    orReply found (RespCodec.integer 0) fun obj sl db =>
      let r := zRemLoop (ctx.cmd.args.drop 1) sl 0
      let db := db.set (ctx.arg 0) (obj.withValue (.zset r.2))
      (RespCodec.integer r.1, if r.2.size = 0 then (db.del (ctx.arg 0)).2 else db)

/-- `ZScoreCmd`. -/
def zScoreCmd : CmdHandler := fun ctx =>
  if ctx.cmd.args.length < 2 then
    (RespCodec.error (ascii "ERR wrong number of arguments for 'ZSCORE'"), ctx.db)
  else
    readZSet ctx RespCodec.nullBulkString fun sl =>
      match sl.getScore (ctx.arg 1) with
      | none => RespCodec.nullBulkString
      | some score => RespCodec.bulkString score.toText

/-- `ZRankCmd`. -/
def zRankCmd : CmdHandler := fun ctx =>
  if ctx.cmd.args.length < 2 then
    (RespCodec.error (ascii "ERR wrong number of arguments for 'ZRANK'"), ctx.db)
  else
    readZSet ctx RespCodec.nullBulkString fun sl =>
      match sl.getRank (ctx.arg 1) with
      | none => RespCodec.nullBulkString
      | some rank => RespCodec.integer rank

/-- `ZRevRankCmd`. -/
def zRevRankCmd : CmdHandler := fun ctx =>
  if ctx.cmd.args.length < 2 then
    (RespCodec.error (ascii "ERR wrong number of arguments for 'ZREVRANK'"), ctx.db)
  else
    readZSet ctx RespCodec.nullBulkString fun sl =>
      match sl.getRank (ctx.arg 1) with
      | none => RespCodec.nullBulkString
      | some rank => RespCodec.integer ((sl.size : Int) - 1 - rank)

/-- The score `ZRangeCmd` prints for a member, `*sl->GetScore(m)`.  An empty
optional would be undefined behaviour; it reads as 0 here. -/
def scoreText (sl : SkipList) (member : Bytes) : Bytes :=
  ((sl.getScore member).getD (Double.ofMagnitude false 0)).toText

/-- The reply of `ZRangeCmd` and `ZRevRangeCmd`. -/
def membersReply (sl : SkipList) (withscores : Bool) (members : List Bytes) : Bytes :=
  bulkArray (members.flatMap fun m => if withscores then [m, scoreText sl m] else [m])

/-- Whether the fourth argument is `WITHSCORES`. -/
def hasWithscores (args : List Bytes) : Bool :=
  args.length ≥ 4 && normalize (args.getD 3 []) = ascii "WITHSCORES"

/-- `ZRangeCmd`. -/
def zRangeCmd : CmdHandler := fun ctx =>
  if ctx.cmd.args.length < 3 then
    (RespCodec.error (ascii "ERR wrong number of arguments for 'ZRANGE'"), ctx.db)
  else
    match parseInt (ctx.arg 1), parseInt (ctx.arg 2) with
    | some start, some stop =>
      readZSet ctx RespCodec.emptyArray fun sl =>
        membersReply sl (hasWithscores ctx.cmd.args) (sl.rangeByRank start.toInt stop.toInt)
    | _, _ => (RespCodec.error (ascii "ERR value is not an integer"), ctx.db)

/-- `ZRevRangeCmd` on the skip list. -/
def zRevRange (sl : SkipList) (withscores : Bool) (start stop : Int) : Bytes :=
  let sz : Int := sl.size
  if sz = 0 then RespCodec.emptyArray
  else
    let rs := if start < 0 then start + sz else start
    let re := if stop < 0 then stop + sz else stop
    let rs := if rs < 0 then 0 else rs
    let re := if re ≥ sz then sz - 1 else re
    if rs > re then RespCodec.emptyArray
    else membersReply sl withscores (sl.rangeByRank (sz - 1 - re) (sz - 1 - rs)).reverse

/-- `ZRevRangeCmd`. -/
def zRevRangeCmd : CmdHandler := fun ctx =>
  if ctx.cmd.args.length < 3 then
    (RespCodec.error (ascii "ERR wrong number of arguments for 'ZREVRANGE'"), ctx.db)
  else
    match parseInt (ctx.arg 1), parseInt (ctx.arg 2) with
    | some start, some stop =>
      readZSet ctx RespCodec.emptyArray fun sl =>
        zRevRange sl (hasWithscores ctx.cmd.args) start.toInt stop.toInt
    | _, _ => (RespCodec.error (ascii "ERR value is not an integer"), ctx.db)

/-- `ZCardCmd`. -/
def zCardCmd : CmdHandler := fun ctx =>
  if ctx.cmd.args.isEmpty then
    (RespCodec.error (ascii "ERR wrong number of arguments for 'ZCARD'"), ctx.db)
  else readZSet ctx (RespCodec.integer 0) fun sl => RespCodec.integer sl.size

end RedisLike
