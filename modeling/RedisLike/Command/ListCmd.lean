import RedisLike.Command.Router

/-!
# RedisLike.Command.ListCmd

The handlers of `list_cmd.cpp`, with `List::Range` of `ds/list.cpp`.
-/

namespace RedisLike

/-- `GetList` and what a reading command makes of it. -/
def readList (ctx : CmdContext) (absent : Bytes) (present : RedisList → Bytes) : Bytes × Dict :=
  readObject ValueVariant.asList ctx (ctx.arg 0) absent present

/-- `LPushCmd` and `RPushCmd`, which differ in the end they push at. -/
def pushWith (arity : Bytes) (push : RedisList → Bytes → RedisList) : CmdHandler := fun ctx =>
  if ctx.cmd.args.length < 2 then (arity, ctx.db)
  else
    let found := getOrCreateObject ValueVariant.asList RedisObject.createList ctx (ctx.arg 0)
    orReply found wrongType fun obj lst db =>
      let lst := (ctx.cmd.args.drop 1).foldl push lst
      (RespCodec.integer lst.length, db.set (ctx.arg 0) (obj.withValue (.list lst)))

/-- `LPushCmd`. -/
def lPushCmd : CmdHandler :=
  pushWith (RespCodec.error (ascii "ERR wrong number of arguments for 'LPUSH'"))
    fun lst v => v :: lst

/-- `RPushCmd`. -/
def rPushCmd : CmdHandler :=
  pushWith (RespCodec.error (ascii "ERR wrong number of arguments for 'RPUSH'"))
    fun lst v => lst ++ [v]

/-- The front of a list and the rest, for `LPopCmd`. -/
def popFront : RedisList → Option (Bytes × RedisList)
  | [] => none
  | x :: lst => some (x, lst)

/-- The back of a list and the rest, for `RPopCmd`. -/
def popBack (lst : RedisList) : Option (Bytes × RedisList) :=
  lst.getLast?.map fun x => (x, lst.dropLast)

/-- The loop of `LPopCmd` and `RPopCmd`: `count` pops, or fewer when the list
runs empty. -/
def popLoop (pop : RedisList → Option (Bytes × RedisList)) : Nat → RedisList →
    List Bytes × RedisList
  | 0, lst => ([], lst)
  | count + 1, lst =>
    match pop lst with
    | none => ([], lst)
    | some (x, lst) =>
      let r := popLoop pop count lst
      (RespCodec.bulkString x :: r.1, r.2)

/-- The reply to a pop: an array when there was a count, else the only element. -/
def popReply (withCount : Bool) (result : List Bytes) : Bytes :=
  if withCount then RespCodec.array result
  else result.headD RespCodec.nullBulkString

/-- `LPopCmd` and `RPopCmd`, which differ in the end they pop at. -/
def popWith (arity : Bytes) (pop : RedisList → Option (Bytes × RedisList)) : CmdHandler :=
  fun ctx =>
    if ctx.cmd.args.isEmpty then (arity, ctx.db)
    else
      let withCount : Bool := ctx.cmd.args.length ≥ 2
      let count : Option Int64 := if withCount then parseInt (ctx.arg 1) else some 1
      match count with
      | none => (RespCodec.error (ascii "ERR value is out of range"), ctx.db)
      | some count =>
        if count < 0 then (RespCodec.error (ascii "ERR value is out of range"), ctx.db)
        else
          let found := getObject ValueVariant.asList ctx (ctx.arg 0)
          orReply found RespCodec.nullBulkString fun obj lst db =>
            let r := popLoop pop count.toInt.toNat lst
            let db := db.set (ctx.arg 0) (obj.withValue (.list r.2))
            (popReply withCount r.1, if r.2.isEmpty then (db.del (ctx.arg 0)).2 else db)

/-- `LPopCmd`. -/
def lPopCmd : CmdHandler :=
  popWith (RespCodec.error (ascii "ERR wrong number of arguments for 'LPOP'")) popFront

/-- `RPopCmd`. -/
def rPopCmd : CmdHandler :=
  popWith (RespCodec.error (ascii "ERR wrong number of arguments for 'RPOP'")) popBack

/-- `LLenCmd`. -/
def lLenCmd : CmdHandler := fun ctx =>
  if ctx.cmd.args.isEmpty then
    (RespCodec.error (ascii "ERR wrong number of arguments for 'LLEN'"), ctx.db)
  else readList ctx (RespCodec.integer 0) fun lst => RespCodec.integer lst.length

/-- `List::Range`.  Adding the size to a negative index cannot overflow. -/
def listRange (lst : RedisList) (start stop : Int) : List Bytes :=
  let sz : Int := lst.length
  if sz = 0 then []
  else
    let start := if start < 0 then start + sz else start
    let stop := if stop < 0 then stop + sz else stop
    let start := if start < 0 then 0 else start
    let stop := if stop ≥ sz then sz - 1 else stop
    if start > stop then []
    else (lst.drop start.toNat).take (stop - start + 1).toNat

/-- `LRangeCmd`. -/
def lRangeCmd : CmdHandler := fun ctx =>
  if ctx.cmd.args.length < 3 then
    (RespCodec.error (ascii "ERR wrong number of arguments for 'LRANGE'"), ctx.db)
  else
    match parseInt (ctx.arg 1), parseInt (ctx.arg 2) with
    | some start, some stop =>
      readList ctx RespCodec.emptyArray fun lst =>
        bulkArray (listRange lst start.toInt stop.toInt)
    | _, _ => (RespCodec.error (ascii "ERR value is not an integer"), ctx.db)

/-- `LIndexCmd`. -/
def lIndexCmd : CmdHandler := fun ctx =>
  if ctx.cmd.args.length < 2 then
    (RespCodec.error (ascii "ERR wrong number of arguments for 'LINDEX'"), ctx.db)
  else
    match parseInt (ctx.arg 1) with
    | none => (RespCodec.error (ascii "ERR value is not an integer"), ctx.db)
    | some idx =>
      readList ctx RespCodec.nullBulkString fun lst =>
        let sz : Int := lst.length
        if sz = 0 then RespCodec.nullBulkString
        else
          let idx := if idx.toInt < 0 then idx.toInt + sz else idx.toInt
          if idx < 0 ∨ idx ≥ sz then RespCodec.nullBulkString
          else RespCodec.bulkString (lst.getD idx.toNat [])

end RedisLike
