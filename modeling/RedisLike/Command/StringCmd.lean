import RedisLike.Command.Router

/-!
# RedisLike.Command.StringCmd

The handlers of `string_cmd.cpp`: strings, and the commands on keys of any
type.
-/

namespace RedisLike

/-! ## Patterns -/

/-- The order of `char`, which is signed. -/
def charLe (a b : UInt8) : Bool := a.toInt8 ≤ b.toInt8

/-- `pattern.find(c, from)`. -/
def findByte (pattern : Bytes) (c : UInt8) (start : Nat) : Option Nat :=
  ((pattern.drop start).findIdx? (· = c)).map (start + ·)

/-- The loop over a class `[...]` of `MatchGlob`, from `ci` up to `close`. -/
def classMatches (pattern : Bytes) (c : UInt8) (close : Nat) : Nat → Nat → Bool
  | 0, _ => false
  | fuel + 1, ci =>
    if ci < close then
      if ci + 2 < close ∧ pattern.getD (ci + 1) 0 = 45 then
        if charLe (pattern.getD ci 0) c && charLe c (pattern.getD (ci + 2) 0) then true
        else classMatches pattern c close fuel (ci + 3)
      else if pattern.getD ci 0 = c then true
      else classMatches pattern c close fuel (ci + 1)
    else false

/-- The main loop of `MatchGlob`; `none` is `return false`, otherwise the value
of `pi` behind the loop.  A round moves `matchIdx` on, or else `pi`. -/
def globLoop (str pattern : Bytes) : Nat → Nat → Nat → Option Nat → Nat → Option Nat
  | 0, _, pi, _, _ => some pi
  | fuel + 1, si, pi, starIdx, matchIdx =>
    if si < str.length then
      let c := str.getD si 0
      let p := pattern.getD pi 0
      let inPattern := pi < pattern.length
      if inPattern ∧ (p = 63 ∨ p = c) then
        globLoop str pattern fuel (si + 1) (pi + 1) starIdx matchIdx
      else if inPattern ∧ p = 42 then
        globLoop str pattern fuel si (pi + 1) (some pi) si
      else
        match starIdx with
        | some star =>
          globLoop str pattern fuel (matchIdx + 1) (star + 1) starIdx (matchIdx + 1)
        | none =>
          if inPattern ∧ p = 91 then
            match findByte pattern 93 pi with
            | none =>
              if p ≠ c then none
              else globLoop str pattern fuel (si + 1) (pi + 1) starIdx matchIdx
            | some close =>
              let negate : Bool := pi + 1 < pattern.length && pattern.getD (pi + 1) 0 = 94
              let cs := if negate then pi + 2 else pi + 1
              -- no star has been met here, so a class that fails ends the match
              if classMatches pattern c close close cs = negate then none
              else globLoop str pattern fuel (si + 1) (close + 1) starIdx matchIdx
          else none
    else some pi

/-- `MatchGlob`. -/
def matchGlob (str pattern : Bytes) : Bool :=
  match globLoop str pattern ((str.length + 1) * (pattern.length + 1)) 0 0 none 0 with
  | none => false
  | some pi => (pattern.drop pi).all (· = 42)

/-! ## Strings -/

/-- What the option loop of `SetCmd` collects; `expiry` is set when
`expiry_mode` is not `kNone`, to `expiry_ms`. -/
structure SetOptions where
  expiry : Option Int64 := none
  nx : Bool := false
  xx : Bool := false

/-- The option loop of `SetCmd`; an error is the reply. -/
def setOptions : List Bytes → SetOptions → Except Bytes SetOptions
  | [], o => .ok o
  | opt :: rest, o =>
    let opt := normalize opt
    if opt = ascii "NX" then setOptions rest { o with nx := true }
    else if opt = ascii "XX" then setOptions rest { o with xx := true }
    else if opt = ascii "EX" then
      match rest with
      | [] => .error (RespCodec.error (ascii "ERR syntax error"))
      | v :: rest =>
        match parseInt v with
        | none => .error (RespCodec.error (ascii "ERR invalid expire time in 'SET'"))
        | some v =>
          if v ≤ 0 then .error (RespCodec.error (ascii "ERR invalid expire time in 'SET'"))
          else setOptions rest { o with expiry := some (v * 1000) }
    else if opt = ascii "PX" then
      match rest with
      | [] => .error (RespCodec.error (ascii "ERR syntax error"))
      | v :: rest =>
        match parseInt v with
        | none => .error (RespCodec.error (ascii "ERR invalid expire time in 'SET'"))
        | some v =>
          if v ≤ 0 then .error (RespCodec.error (ascii "ERR invalid expire time in 'SET'"))
          else setOptions rest { o with expiry := some v }
    else .error (RespCodec.error (ascii "ERR syntax error"))

/-- `now + std::chrono::milliseconds(ms)`. -/
def addMilliseconds (now : TimePoint) (ms : Int64) : TimePoint := now + ms * 1000000

/-- `now + std::chrono::seconds(s)`. -/
def addSeconds (now : TimePoint) (s : Int64) : TimePoint := now + s * 1000000000

/-- `SetCmd`. -/
def setCmd : CmdHandler := fun ctx =>
  if ctx.cmd.args.length < 2 then
    (RespCodec.error (ascii "ERR wrong number of arguments for 'SET' command"), ctx.db)
  else
    let key := ctx.arg 0
    let val := ctx.arg 1
    match setOptions (ctx.cmd.args.drop 2) {} with
    | .error reply => (reply, ctx.db)
    | .ok o =>
      if o.nx && o.xx then
        (RespCodec.error (ascii "ERR NX and XX options are mutually exclusive"), ctx.db)
      else
        let db := ctx.checkExpire key
        let exists_ := db.existsKey key
        if o.nx && exists_ then (RespCodec.nullBulkString, db)
        else if o.xx && !exists_ then (RespCodec.nullBulkString, db)
        else
          let obj := RedisObject.createString val
          let obj := match o.expiry with
            | none => obj
            | some ms => obj.withExpire (some (addMilliseconds ctx.now ms))
          (RespCodec.ok, db.set key obj)

/-- `GetCmd`. -/
def getCmd : CmdHandler := fun ctx =>
  if ctx.cmd.args.isEmpty then
    (RespCodec.error (ascii "ERR wrong number of arguments for 'GET' command"), ctx.db)
  else
    readObject ValueVariant.asString ctx (ctx.arg 0) RespCodec.nullBulkString
      RespCodec.bulkString

/-! ## Keys -/

/-- The loop of `DelCmd`. -/
def delLoop : List Bytes → Dict → Nat → Nat × Dict
  | [], db, count => (count, db)
  | key :: keys, db, count =>
    let r := db.del key
    delLoop keys r.2 (if r.1 then count + 1 else count)

/-- `DelCmd`, which deletes without a look at the deadlines. -/
def delCmd : CmdHandler := fun ctx =>
  if ctx.cmd.args.isEmpty then
    (RespCodec.error (ascii "ERR wrong number of arguments for 'DEL' command"), ctx.db)
  else
    let r := delLoop ctx.cmd.args ctx.db 0
    (RespCodec.integer r.1, r.2)

/-- The loop of `ExistsCmd`. -/
def existsLoop (now : TimePoint) : List Bytes → Dict → Nat → Nat × Dict
  | [], db, count => (count, db)
  | key :: keys, db, count =>
    let db := (lazyCheck db key now).2
    existsLoop now keys db (if db.existsKey key then count + 1 else count)

/-- `ExistsCmd`. -/
def existsCmd : CmdHandler := fun ctx =>
  if ctx.cmd.args.isEmpty then
    (RespCodec.error (ascii "ERR wrong number of arguments for 'EXISTS' command"), ctx.db)
  else
    let r := existsLoop ctx.now ctx.cmd.args ctx.db 0
    (RespCodec.integer r.1, r.2)

/-- `ExpireCmd` and `PExpireCmd`, which differ in the unit. -/
def expireWith (arity : Bytes) (add : TimePoint → Int64 → TimePoint) : CmdHandler := fun ctx =>
  if ctx.cmd.args.length < 2 then (arity, ctx.db)
  else
    match parseInt (ctx.arg 1) with
    | none => (RespCodec.error (ascii "ERR value is not an integer"), ctx.db)
    | some n =>
      let db := ctx.checkExpire (ctx.arg 0)
      match db.get (ctx.arg 0) with
      | none => (RespCodec.integer 0, db)
      | some obj =>
        if n > 0 then
          (RespCodec.integer 1, db.set (ctx.arg 0) (obj.withExpire (some (add ctx.now n))))
        else (RespCodec.integer 1, (db.del (ctx.arg 0)).2)

/-- `ExpireCmd`. -/
def expireCmd : CmdHandler :=
  expireWith (RespCodec.error (ascii "ERR wrong number of arguments for 'EXPIRE' command"))
    addSeconds

/-- `PExpireCmd`. -/
def pExpireCmd : CmdHandler :=
  expireWith (RespCodec.error (ascii "ERR wrong number of arguments for 'PEXPIRE' command"))
    addMilliseconds

/-- The shape of `TtlCmd`, `PTtlCmd` and `TypeCmd`: a reply computed from the
object of a key, or from its absence. -/
def inspectKey (arity : Bytes) (reply : TimePoint → Option RedisObject → Bytes) : CmdHandler :=
  fun ctx =>
    if ctx.cmd.args.isEmpty then (arity, ctx.db)
    else
      let db := ctx.checkExpire (ctx.arg 0)
      (reply ctx.now (db.get (ctx.arg 0)), db)

/-- `TtlCmd`. -/
def ttlCmd : CmdHandler :=
  inspectKey (RespCodec.error (ascii "ERR wrong number of arguments for 'TTL' command"))
    fun now obj => RespCodec.integer (getTTL obj now).toInt

/-- The milliseconds `PTtlCmd` replies. -/
def getPTTL (obj : Option RedisObject) (now : TimePoint) : Int64 :=
  match obj with
  | none => -2
  | some obj =>
    match obj.expireAt with
    | none => -1
    | some at_ =>
      let remaining := (at_ - now) / 1000000
      if remaining ≥ 0 then remaining else -2

/-- `PTtlCmd`. -/
def pTtlCmd : CmdHandler :=
  inspectKey (RespCodec.error (ascii "ERR wrong number of arguments for 'PTTL' command"))
    fun now obj => RespCodec.integer (getPTTL obj now).toInt

/-- `TypeCmd`. -/
def typeCmd : CmdHandler :=
  inspectKey (RespCodec.error (ascii "ERR wrong number of arguments for 'TYPE' command"))
    fun _ obj =>
      match obj with
      | none => RespCodec.simpleString (ascii "none")
      | some obj => RespCodec.simpleString obj.type.name

/-- The loop of `KeysCmd` over the keys collected before it. -/
def keysLoop (now : TimePoint) (pattern : Bytes) : List Bytes → Dict → List Bytes × Dict
  | [], db => ([], db)
  | key :: keys, db =>
    match db.get key with
    | none => keysLoop now pattern keys db
    | some obj =>
      if obj.isExpired now then keysLoop now pattern keys (db.del key).2
      else
        let r := keysLoop now pattern keys db
        (if matchGlob key pattern then key :: r.1 else r.1, r.2)

/-- `KeysCmd`. -/
def keysCmd : CmdHandler := fun ctx =>
  if ctx.cmd.args.isEmpty then
    (RespCodec.error (ascii "ERR wrong number of arguments for 'KEYS' command"), ctx.db)
  else
    let r := keysLoop ctx.now (ctx.arg 0) ctx.db.keys ctx.db
    (bulkArray r.1, r.2)

end RedisLike
