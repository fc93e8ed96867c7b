import RedisLike.Command.Router

/-!
# RedisLike.Command.SetCmd

The handlers of `set_cmd.cpp`.
-/

namespace RedisLike

/-- `GetSet` and what a reading command makes of it. -/
def readSet (ctx : CmdContext) (absent : Bytes) (present : RedisSet → Bytes) : Bytes × Dict :=
  readObject ValueVariant.asSet ctx (ctx.arg 0) absent present

/-- The loop of `SAddCmd`. -/
def sAddLoop : List Bytes → RedisSet → Nat → Nat × RedisSet
  | [], set, added => (added, set)
  | member :: rest, set, added =>
    sAddLoop rest (set.insert member) (if member ∈ set then added else added + 1)

/-- `SAddCmd`. -/
def sAddCmd : CmdHandler := fun ctx =>
  if ctx.cmd.args.length < 2 then
    (RespCodec.error (ascii "ERR wrong number of arguments for 'SADD'"), ctx.db)
  else
    let found := getOrCreateObject ValueVariant.asSet RedisObject.createSet ctx (ctx.arg 0)
    orReply found wrongType fun obj set db =>
      let r := sAddLoop (ctx.cmd.args.drop 1) set 0
      (RespCodec.integer r.1, db.set (ctx.arg 0) (obj.withValue (.set r.2)))

/-- The loop of `SRemCmd`. -/
def sRemLoop : List Bytes → RedisSet → Nat → Nat × RedisSet
  | [], set, removed => (removed, set)
  | member :: rest, set, removed =>
    sRemLoop rest (set.erase member) (if member ∈ set then removed + 1 else removed)

/-- `SRemCmd`. -/
def sRemCmd : CmdHandler := fun ctx =>
  if ctx.cmd.args.length < 2 then
    (RespCodec.error (ascii "ERR wrong number of arguments for 'SREM'"), ctx.db)
  else
    let found := getObject ValueVariant.asSet ctx (ctx.arg 0)
    orReply found (RespCodec.integer 0) fun obj set db =>
      let r := sRemLoop (ctx.cmd.args.drop 1) set 0
      let db := db.set (ctx.arg 0) (obj.withValue (.set r.2))
      (RespCodec.integer r.1, if r.2.empty then (db.del (ctx.arg 0)).2 else db)

/-- `SIsMemberCmd`. -/
def sIsMemberCmd : CmdHandler := fun ctx =>
  if ctx.cmd.args.length < 2 then
    (RespCodec.error (ascii "ERR wrong number of arguments for 'SISMEMBER'"), ctx.db)
  else
    readSet ctx (RespCodec.integer 0) fun set => boolReply (set.contains (ctx.arg 1))

/-- `SMembersCmd`. -/
def sMembersCmd : CmdHandler := fun ctx =>
  if ctx.cmd.args.isEmpty then
    (RespCodec.error (ascii "ERR wrong number of arguments for 'SMEMBERS'"), ctx.db)
  else readSet ctx RespCodec.emptyArray fun set => bulkArray set.elems

/-- `SCardCmd`. -/
def sCardCmd : CmdHandler := fun ctx =>
  if ctx.cmd.args.isEmpty then
    (RespCodec.error (ascii "ERR wrong number of arguments for 'SCARD'"), ctx.db)
  else readSet ctx (RespCodec.integer 0) fun set => RespCodec.integer set.size

/-- The loop of `SPopCmd`: round `i` draws an index below the size of the set. -/
def sPopLoop (rng : Nat → Nat → Nat) : Nat → Nat → RedisSet → List Bytes × RedisSet
  | 0, _, set => ([], set)
  | count + 1, i, set =>
    let member := set.elems.getD (rng i 0 % set.size) []
    let r := sPopLoop rng count (i + 1) (set.erase member)
    (RespCodec.bulkString member :: r.1, r.2)

/-- The count argument of `SPopCmd`, 1 without one; `none` when it is out of
range. -/
def sPopArg (args : List Bytes) : Option Int :=
  if args.length ≥ 2 then
    let (v, e) := strtoll (args.getD 1 [])
    if e = 0 ∨ trailing (args.getD 1 []) e ∨ v < 0 then none else some v
  else some 1

/-- `SPopCmd`. -/
def sPopCmd : CmdHandler := fun ctx =>
  if ctx.cmd.args.isEmpty then
    (RespCodec.error (ascii "ERR wrong number of arguments for 'SPOP'"), ctx.db)
  else
    let withCount : Bool := ctx.cmd.args.length ≥ 2
    match sPopArg ctx.cmd.args with
    | none => (RespCodec.error (ascii "ERR value is out of range"), ctx.db)
    | some count =>
      let found := getObject ValueVariant.asSet ctx (ctx.arg 0)
      let absent := if withCount then RespCodec.emptyArray else RespCodec.nullBulkString
      orReply found absent fun obj set db =>
        let count := if count > set.size then (set.size : Int) else count
        let r := sPopLoop ctx.rng count.toNat 0 set
        let db := db.set (ctx.arg 0) (obj.withValue (.set r.2))
        (if withCount then RespCodec.array r.1 else r.1.headD RespCodec.nullBulkString,
          if r.2.empty then (db.del (ctx.arg 0)).2 else db)

end RedisLike
