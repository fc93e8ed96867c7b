import RedisLike.Command.Local

/-!
# RedisLike.Command.Actions

The actions of the handlers.

A writing command has an action of its own, as a function of its arguments, the
clock and the random words (`writeActions`).  The reading ones share `Reads`.
`findHandler_spec` says of every entry of the table which of the two it is, the
commands on many keys apart.
-/

namespace RedisLike

open KeyAction

/-! ## Replies that are no errors -/

@[simp] theorem isError_integer (n : Int) : isError (RespCodec.integer n) = false := rfl

@[simp] theorem isError_array (items : List Bytes) : isError (RespCodec.array items) = false := rfl

@[simp] theorem isError_bulkString (s : Bytes) : isError (RespCodec.bulkString s) = false := rfl

@[simp] theorem isError_simpleString (s : Bytes) :
    isError (RespCodec.simpleString s) = false := rfl

@[simp] theorem isError_nullBulkString : isError RespCodec.nullBulkString = false := rfl

@[simp] theorem isError_ok : isError RespCodec.ok = false := rfl

@[simp] theorem isError_emptyArray : isError RespCodec.emptyArray = false := rfl

@[simp] theorem isError_wrongType : isError wrongType = true := rfl

theorem isError_error (msg : Bytes) : isError (RespCodec.error msg) = true := rfl

/-! ## Writing commands -/

/-- `SET`. -/
def setAction (args : List Bytes) (now : TimePoint) : KeyAction :=
  if args.length < 2 then
    .idle (RespCodec.error (ascii "ERR wrong number of arguments for 'SET' command"))
  else
    match setOptions (args.drop 2) {} with
    | .error reply => .idle reply
    | .ok o =>
      if o.nx && o.xx then
        .idle (RespCodec.error (ascii "ERR NX and XX options are mutually exclusive"))
      else
        .act fun e =>
          if o.nx && e.isSome then (RespCodec.nullBulkString, e)
          else if o.xx && !e.isSome then (RespCodec.nullBulkString, e)
          else (RespCodec.ok, some ((RedisObject.createString (args.getD 1 [])).withExpire
            (o.expiry.map (addMilliseconds now))))

theorem setCmd_performs (ctx : CmdContext) :
    Performs (CmdHandler.on setCmd ctx) ctx.now (ctx.arg 0) (setAction ctx.cmd.args ctx.now) := by
  unfold CmdHandler.on setCmd setAction
  by_cases h : ctx.cmd.args.length < 2
  · simp only [if_pos h]
    exact fun db => rfl
  · simp only [if_neg h]
    cases ho : setOptions (ctx.cmd.args.drop 2) {} with
    | error reply => exact fun db => rfl
    | ok o =>
        by_cases hx : (o.nx && o.xx) = true
        · simp only [hx, if_true]
          exact fun db => rfl
        · simp only [hx, if_false, Bool.false_eq_true]
          intro db
          have hall := get_checkExpire { ctx with db := db } (ctx.cmd.args.getD 0 [])
          have hself := get_checkExpire_self { ctx with db := db } (ctx.cmd.args.getD 0 [])
          simp only [CmdContext.arg, Dict.existsKey_eq, hself]
          by_cases h1 : (o.nx && (db.live ctx.now (ctx.cmd.args.getD 0 [])).isSome) = true
          · simp only [h1, if_true]
            exact ⟨trivial, hall⟩
          · simp only [h1, if_false, Bool.false_eq_true]
            by_cases h2 : (o.xx && !(db.live ctx.now (ctx.cmd.args.getD 0 [])).isSome) = true
            · simp only [h2, if_true]
              exact ⟨trivial, hall⟩
            · simp only [h2, if_false, Bool.false_eq_true, true_and, Dict.get_set, hall]
              intro k
              by_cases hk : k = ctx.cmd.args.getD 0 []
              · rw [if_pos hk, if_pos hk]
                cases o.expiry <;> rfl
              · rw [if_neg hk, if_neg hk, if_neg hk]

/-- `EXPIRE` and `PEXPIRE`. -/
def expireAction (arity : Bytes) (add : TimePoint → Int64 → TimePoint) (args : List Bytes)
    (now : TimePoint) : KeyAction :=
  if args.length < 2 then .idle arity
  else
    match parseInt (args.getD 1 []) with
    | none => .idle (RespCodec.error (ascii "ERR value is not an integer"))
    | some n =>
      .act fun e =>
        match e with
        | none => (RespCodec.integer 0, none)
        | some obj =>
          (RespCodec.integer 1, if n > 0 then some (obj.withExpire (some (add now n))) else none)

theorem expireWith_performs (arity : Bytes) (add : TimePoint → Int64 → TimePoint)
    (ctx : CmdContext) :
    Performs (CmdHandler.on (expireWith arity add) ctx) ctx.now (ctx.arg 0)
      (expireAction arity add ctx.cmd.args ctx.now) := by
  unfold CmdHandler.on expireWith expireAction
  by_cases h : ctx.cmd.args.length < 2
  · simp only [if_pos h]
    exact fun db => rfl
  · simp only [if_neg h, CmdContext.arg]
    cases hn : parseInt (ctx.cmd.args.getD 1 []) with
    | none => exact fun db => rfl
    | some n =>
        intro db
        have hall := get_checkExpire { ctx with db := db } (ctx.cmd.args.getD 0 [])
        have hself := get_checkExpire_self { ctx with db := db } (ctx.cmd.args.getD 0 [])
        simp only [hself]
        cases hl : db.live ctx.now (ctx.cmd.args.getD 0 []) with
        | none =>
            simp only [true_and]
            intro k
            rw [hall, hl]
        | some obj =>
            by_cases hpos : n > 0
            · simp only [if_pos hpos, true_and, Dict.get_set, hall]
              intro k
              by_cases hk : k = ctx.cmd.args.getD 0 [] <;> simp only [hk, if_true, if_false]
            · simp only [if_neg hpos, true_and, Dict.get_del, hall]
              intro k
              by_cases hk : k = ctx.cmd.args.getD 0 [] <;> simp only [hk, if_true, if_false]

/-- `HSET`. -/
def hSetAction (args : List Bytes) : KeyAction :=
  if args.length < 3 ∨ args.length % 2 ≠ 1 then
    .idle (RespCodec.error (ascii "ERR wrong number of arguments for 'HSET'"))
  else
    .create ValueVariant.asHash RedisObject.createHash fun hash =>
      (RespCodec.integer (hSetLoop (args.drop 1) hash 0).1,
        .hash (hSetLoop (args.drop 1) hash 0).2)

theorem hSetCmd_performs (ctx : CmdContext) :
    Performs (CmdHandler.on hSetCmd ctx) ctx.now (ctx.arg 0) (hSetAction ctx.cmd.args) := by
  unfold CmdHandler.on hSetCmd hSetAction
  by_cases h : ctx.cmd.args.length < 3 ∨ ctx.cmd.args.length % 2 ≠ 1
  · simp only [if_pos h]
    exact fun db => rfl
  · simp only [if_neg h]
    exact performs_create rfl (by rfl)

/-- `HDEL`. -/
def hDelAction (args : List Bytes) : KeyAction :=
  if args.length < 2 then
    .idle (RespCodec.error (ascii "ERR wrong number of arguments for 'HDEL'"))
  else
    .remove ValueVariant.asHash (RespCodec.integer 0) fun hash =>
      (RespCodec.integer (hDelLoop (args.drop 1) hash 0).1,
        .hash (hDelLoop (args.drop 1) hash 0).2, (hDelLoop (args.drop 1) hash 0).2.empty)

theorem hDelCmd_performs (ctx : CmdContext) :
    Performs (CmdHandler.on hDelCmd ctx) ctx.now (ctx.arg 0) (hDelAction ctx.cmd.args) := by
  unfold CmdHandler.on hDelCmd hDelAction
  by_cases h : ctx.cmd.args.length < 2
  · simp only [if_pos h]
    exact fun db => rfl
  · simp only [if_neg h]
    exact performs_remove rfl

/-- `LPUSH` and `RPUSH`. -/
def pushAction (arity : Bytes) (push : RedisList → Bytes → RedisList) (args : List Bytes) :
    KeyAction :=
  if args.length < 2 then .idle arity
  else
    .create ValueVariant.asList RedisObject.createList fun lst =>
      (RespCodec.integer ((args.drop 1).foldl push lst).length, .list ((args.drop 1).foldl push lst))

theorem pushWith_performs (arity : Bytes) (push : RedisList → Bytes → RedisList)
    (ctx : CmdContext) :
    Performs (CmdHandler.on (pushWith arity push) ctx) ctx.now (ctx.arg 0)
      (pushAction arity push ctx.cmd.args) := by
  unfold CmdHandler.on pushWith pushAction
  by_cases h : ctx.cmd.args.length < 2
  · simp only [if_pos h]
    exact fun db => rfl
  · simp only [if_neg h]
    exact performs_create rfl (by rfl)

/-- `LPOP` and `RPOP`. -/
def popAction (arity : Bytes) (pop : RedisList → Option (Bytes × RedisList)) (args : List Bytes) :
    KeyAction :=
  if args.isEmpty then .idle arity
  else
    match if args.length ≥ 2 then parseInt (args.getD 1 []) else some 1 with
    | none => .idle (RespCodec.error (ascii "ERR value is out of range"))
    | some count =>
      if count < 0 then .idle (RespCodec.error (ascii "ERR value is out of range"))
      else
        .remove ValueVariant.asList RespCodec.nullBulkString fun lst =>
          (popReply (args.length ≥ 2) (popLoop pop count.toInt.toNat lst).1,
            .list (popLoop pop count.toInt.toNat lst).2,
            (popLoop pop count.toInt.toNat lst).2.isEmpty)

theorem popWith_performs (arity : Bytes) (pop : RedisList → Option (Bytes × RedisList))
    (ctx : CmdContext) :
    Performs (CmdHandler.on (popWith arity pop) ctx) ctx.now (ctx.arg 0)
      (popAction arity pop ctx.cmd.args) := by
  unfold CmdHandler.on popWith popAction
  by_cases h : ctx.cmd.args.isEmpty = true
  · simp only [if_pos h]
    exact fun db => rfl
  · simp only [if_neg h, decide_eq_true_eq, CmdContext.arg]
    cases hc : (if ctx.cmd.args.length ≥ 2 then parseInt (ctx.cmd.args.getD 1 []) else some 1) with
    | none => exact fun db => rfl
    | some count =>
        by_cases hn : count < 0
        · simp only [if_pos hn]
          exact fun db => rfl
        · simp only [if_neg hn]
          exact performs_remove rfl

/-- `SADD`. -/
def sAddAction (args : List Bytes) : KeyAction :=
  if args.length < 2 then
    .idle (RespCodec.error (ascii "ERR wrong number of arguments for 'SADD'"))
  else
    .create ValueVariant.asSet RedisObject.createSet fun set =>
      (RespCodec.integer (sAddLoop (args.drop 1) set 0).1, .set (sAddLoop (args.drop 1) set 0).2)

theorem sAddCmd_performs (ctx : CmdContext) :
    Performs (CmdHandler.on sAddCmd ctx) ctx.now (ctx.arg 0) (sAddAction ctx.cmd.args) := by
  unfold CmdHandler.on sAddCmd sAddAction
  by_cases h : ctx.cmd.args.length < 2
  · simp only [if_pos h]
    exact fun db => rfl
  · simp only [if_neg h]
    exact performs_create rfl (by rfl)

/-- `SREM`. -/
def sRemAction (args : List Bytes) : KeyAction :=
  if args.length < 2 then
    .idle (RespCodec.error (ascii "ERR wrong number of arguments for 'SREM'"))
  else
    .remove ValueVariant.asSet (RespCodec.integer 0) fun set =>
      (RespCodec.integer (sRemLoop (args.drop 1) set 0).1,
        .set (sRemLoop (args.drop 1) set 0).2, (sRemLoop (args.drop 1) set 0).2.empty)

theorem sRemCmd_performs (ctx : CmdContext) :
    Performs (CmdHandler.on sRemCmd ctx) ctx.now (ctx.arg 0) (sRemAction ctx.cmd.args) := by
  unfold CmdHandler.on sRemCmd sRemAction
  by_cases h : ctx.cmd.args.length < 2
  · simp only [if_pos h]
    exact fun db => rfl
  · simp only [if_neg h]
    exact performs_remove rfl

/-- What `SPOP` takes out of a set: the members drawn, and the rest. -/
def sPopDraw (rng : Nat → Nat → Nat) (count : Int) (set : RedisSet) : List Bytes × RedisSet :=
  sPopLoop rng (if count > set.size then (set.size : Int) else count).toNat 0 set

/-- `SPOP`. -/
def sPopAction (args : List Bytes) (rng : Nat → Nat → Nat) : KeyAction :=
  if args.isEmpty then
    .idle (RespCodec.error (ascii "ERR wrong number of arguments for 'SPOP'"))
  else
    match sPopArg args with
    | none => .idle (RespCodec.error (ascii "ERR value is out of range"))
    | some count =>
      .remove ValueVariant.asSet
        (if decide (args.length ≥ 2) then RespCodec.emptyArray else RespCodec.nullBulkString)
        fun set =>
          (if decide (args.length ≥ 2) then RespCodec.array (sPopDraw rng count set).1
            else (sPopDraw rng count set).1.headD RespCodec.nullBulkString,
            .set (sPopDraw rng count set).2, (sPopDraw rng count set).2.empty)

theorem sPopCmd_performs (ctx : CmdContext) :
    Performs (CmdHandler.on sPopCmd ctx) ctx.now (ctx.arg 0)
      (sPopAction ctx.cmd.args ctx.rng) := by
  unfold CmdHandler.on sPopCmd sPopAction
  by_cases h : ctx.cmd.args.isEmpty = true
  · simp only [if_pos h]
    exact fun db => rfl
  · simp only [if_neg h]
    cases sPopArg ctx.cmd.args with
    | none => exact fun db => rfl
    | some count => exact performs_remove rfl

/-- `ZADD`. -/
def zAddAction (args : List Bytes) (rng : Nat → Nat → Nat) : KeyAction :=
  if args.length < 3 ∨ args.length % 2 ≠ 1 then
    .idle (RespCodec.error (ascii "ERR wrong number of arguments for 'ZADD'"))
  else
    .create ValueVariant.asZSet RedisObject.createZSet fun sl =>
      (match (zAddLoop rng (args.drop 1) 0 sl 0).1 with
        | none => RespCodec.error (ascii "ERR value is not a valid float")
        | some added => RespCodec.integer added,
        .zset (zAddLoop rng (args.drop 1) 0 sl 0).2)

theorem zAddCmd_performs (ctx : CmdContext) :
    Performs (CmdHandler.on zAddCmd ctx) ctx.now (ctx.arg 0)
      (zAddAction ctx.cmd.args ctx.rng) := by
  unfold CmdHandler.on zAddCmd zAddAction
  by_cases h : ctx.cmd.args.length < 3 ∨ ctx.cmd.args.length % 2 ≠ 1
  · simp only [if_pos h]
    exact fun db => rfl
  · simp only [if_neg h]
    refine performs_create (funext fun db => ?_) (by rfl)
    -- the handler writes the list back in both cases of the loop
    congr 1
    funext obj sl db
    simp only [CmdContext.arg]
    cases (zAddLoop ctx.rng (ctx.cmd.args.drop 1) 0 sl 0).1 <;> rfl

/-- `ZREM`. -/
def zRemAction (args : List Bytes) : KeyAction :=
  if args.length < 2 then
    .idle (RespCodec.error (ascii "ERR wrong number of arguments for 'ZREM'"))
  else
    .remove ValueVariant.asZSet (RespCodec.integer 0) fun sl =>
      (RespCodec.integer (zRemLoop (args.drop 1) sl 0).1,
        .zset (zRemLoop (args.drop 1) sl 0).2, (zRemLoop (args.drop 1) sl 0).2.size = 0)

theorem zRemCmd_performs (ctx : CmdContext) :
    Performs (CmdHandler.on zRemCmd ctx) ctx.now (ctx.arg 0) (zRemAction ctx.cmd.args) := by
  unfold CmdHandler.on zRemCmd zRemAction
  by_cases h : ctx.cmd.args.length < 2
  · simp only [if_pos h]
    exact fun db => rfl
  · simp only [if_neg h]
    refine performs_remove (funext fun db => ?_)
    simp only [decide_eq_true_eq]
    rfl

/-! ## Reading commands -/

/-- `f` reads the entry of `key`, or does not look at the key space. -/
def ReadsAt (f : Dict → Bytes × Dict) (now : TimePoint) (key : Bytes) : Prop :=
  ∃ a, Performs f now key a ∧ a.ReadOnly

/-- A handler that changes nothing but expired entries. -/
def Reads (h : CmdHandler) : Prop := ∀ ctx, ReadsAt (h.on ctx) ctx.now (ctx.arg 0)

/-- `f` reads the entry of `key` as of type `t`: an object of another type reads
as a missing key. -/
def ReadsTypeAt (t : ObjType) (f : Dict → Bytes × Dict) (now : TimePoint) (key : Bytes) : Prop :=
  ∃ a, Performs f now key a ∧ a.ReadOnly ∧ a.Blind t

/-- A handler that reads objects of type `t`. -/
def ReadsType (t : ObjType) (h : CmdHandler) : Prop :=
  ∀ ctx, ReadsTypeAt t (h.on ctx) ctx.now (ctx.arg 0)

theorem ReadsType.reads {t : ObjType} {h : CmdHandler} (hr : ReadsType t h) : Reads h :=
  fun ctx => (hr ctx).imp fun _ ha => ⟨ha.1, ha.2.1⟩

section reading

variable {ctx : CmdContext} {key : Bytes} {f : Dict → Bytes × Dict} {now : TimePoint}
  {t : ObjType}

theorem ReadsTypeAt.const (reply : Bytes) : ReadsTypeAt t (fun db => (reply, db)) now key :=
  ⟨.idle reply, fun _ => rfl, trivial, trivial⟩

/-- A check of the arguments in front, which does not depend on the `Dict`. -/
theorem ReadsTypeAt.ite {c : Prop} {dec : Dict → Decidable c} {reply : Bytes}
    (h : ReadsTypeAt t f now key) :
    ReadsTypeAt t (fun db => @ite _ c (dec db) (reply, db) (f db)) now key := by
  by_cases hc : c
  · simp only [if_pos hc]
    exact .const reply
  · simpa only [if_neg hc] using h

theorem ReadsTypeAt.read {α : Type} {as : ValueVariant → Option α} {absent : Bytes}
    {present : α → Bytes} (has : ∀ v a, as v = some a → v.objType = t) :
    ReadsTypeAt t (fun db => readObject as { ctx with db := db } key absent present) ctx.now key :=
  ⟨_, performs_read absent present, fun _ => rfl, blind_read has⟩

end reading

theorem serverCmd_reads : Reads pingCmd ∧ Reads commandCmd ∧ Reads quitCmd :=
  ⟨fun ctx => ⟨.idle (if ctx.cmd.args.isEmpty then RespCodec.pong
      else RespCodec.bulkString (ctx.arg 0)), fun _ => rfl, trivial⟩,
    fun _ => ⟨.idle RespCodec.emptyArray, fun _ => rfl, trivial⟩,
    fun _ => ⟨.idle RespCodec.ok, fun _ => rfl, trivial⟩⟩

/-- A reply computed from the entry, of whatever type. -/
theorem inspectKey_reads (arity : Bytes) (reply : TimePoint → Option RedisObject → Bytes) :
    Reads (inspectKey arity reply) := by
  intro ctx
  unfold CmdHandler.on inspectKey
  by_cases h : ctx.cmd.args.isEmpty = true
  · simp only [if_pos h]
    exact ⟨.idle arity, fun _ => rfl, trivial⟩
  · simp only [if_neg h]
    refine ⟨.act fun e => (reply ctx.now e, e), fun db => ⟨?_, fun k => ?_⟩, fun _ => rfl⟩
    · exact congrArg (reply ctx.now) (get_checkExpire_self { ctx with db := db } _)
    · exact get_checkExpire { ctx with db := db } _ k

theorem getCmd_reads : ReadsType .string getCmd := by
  intro ctx
  unfold CmdHandler.on
  dsimp only [getCmd, CmdContext.arg]
  exact .ite (.read fun _ _ => objType_of_asString)

theorem hashCmd_reads : ReadsType .hash hGetCmd ∧ ReadsType .hash hExistsCmd ∧
    ReadsType .hash hKeysCmd ∧ ReadsType .hash hValsCmd ∧ ReadsType .hash hGetAllCmd ∧
      ReadsType .hash hLenCmd ∧ ReadsType .hash hStrLenCmd := by
  refine ⟨?_, ?_, ?_, ?_, ?_, ?_, ?_⟩ <;> intro ctx <;> unfold CmdHandler.on <;>
    dsimp only [hGetCmd, hExistsCmd, hKeysCmd, hValsCmd, hGetAllCmd, hLenCmd,
      hStrLenCmd, readHash, CmdContext.arg] <;>
    exact .ite (.read fun _ _ => objType_of_asHash)

theorem listCmd_reads : ReadsType .list lLenCmd ∧ ReadsType .list lRangeCmd ∧
    ReadsType .list lIndexCmd := by
  refine ⟨?_, ?_, ?_⟩ <;> intro ctx <;> unfold CmdHandler.on <;>
    dsimp only [lLenCmd, lRangeCmd, lIndexCmd, readList, CmdContext.arg] <;> refine .ite ?_
  · exact .read fun _ _ => objType_of_asList
  · cases parseInt (ctx.cmd.args.getD 1 []) with
    | none => exact .const _
    | some start =>
        cases parseInt (ctx.cmd.args.getD 2 []) with
        | none => exact .const _
        | some stop => exact .read fun _ _ => objType_of_asList
  · cases parseInt (ctx.cmd.args.getD 1 []) with
    | none => exact .const _
    | some idx => exact .read fun _ _ => objType_of_asList

theorem setCmd_reads : ReadsType .set sIsMemberCmd ∧ ReadsType .set sMembersCmd ∧
    ReadsType .set sCardCmd := by
  refine ⟨?_, ?_, ?_⟩ <;> intro ctx <;> unfold CmdHandler.on <;>
    dsimp only [sIsMemberCmd, sMembersCmd, sCardCmd, readSet, CmdContext.arg] <;>
    exact .ite (.read fun _ _ => objType_of_asSet)

theorem zSetCmd_reads : ReadsType .zset zScoreCmd ∧ ReadsType .zset zRankCmd ∧
    ReadsType .zset zRevRankCmd ∧ ReadsType .zset zCardCmd := by
  refine ⟨?_, ?_, ?_, ?_⟩ <;> intro ctx <;> unfold CmdHandler.on <;>
    dsimp only [zScoreCmd, zRankCmd, zRevRankCmd, zCardCmd, readZSet,
      CmdContext.arg] <;>
    exact .ite (.read fun _ _ => objType_of_asZSet)

theorem zRangeCmd_reads : ReadsType .zset zRangeCmd ∧ ReadsType .zset zRevRangeCmd := by
  refine ⟨?_, ?_⟩ <;> intro ctx <;> unfold CmdHandler.on <;>
    dsimp only [zRangeCmd, zRevRangeCmd, readZSet, CmdContext.arg] <;>
    refine .ite ?_ <;>
    cases parseInt (ctx.cmd.args.getD 1 []) with
    | none => exact .const _
    | some start =>
        cases parseInt (ctx.cmd.args.getD 2 []) with
        | none => exact .const _
        | some stop => exact .read fun _ _ => objType_of_asZSet

/-! ## The table -/

/-- The actions of the commands that write to one key. -/
def writeActions : List (Bytes × (List Bytes → TimePoint → (Nat → Nat → Nat) → KeyAction)) :=
  [ (ascii "SET", fun args now _ => setAction args now),
    (ascii "EXPIRE", fun args now _ => expireAction
      (RespCodec.error (ascii "ERR wrong number of arguments for 'EXPIRE' command"))
      addSeconds args now),
    (ascii "PEXPIRE", fun args now _ => expireAction
      (RespCodec.error (ascii "ERR wrong number of arguments for 'PEXPIRE' command"))
      addMilliseconds args now),
    (ascii "HSET", fun args _ _ => hSetAction args),
    (ascii "HDEL", fun args _ _ => hDelAction args),
    (ascii "LPUSH", fun args _ _ => pushAction
      (RespCodec.error (ascii "ERR wrong number of arguments for 'LPUSH'"))
      (fun lst v => v :: lst) args),
    (ascii "RPUSH", fun args _ _ => pushAction
      (RespCodec.error (ascii "ERR wrong number of arguments for 'RPUSH'"))
      (fun lst v => lst ++ [v]) args),
    (ascii "LPOP", fun args _ _ => popAction
      (RespCodec.error (ascii "ERR wrong number of arguments for 'LPOP'")) popFront args),
    (ascii "RPOP", fun args _ _ => popAction
      (RespCodec.error (ascii "ERR wrong number of arguments for 'RPOP'")) popBack args),
    (ascii "SADD", fun args _ _ => sAddAction args),
    (ascii "SREM", fun args _ _ => sRemAction args),
    (ascii "SPOP", fun args _ rng => sPopAction args rng),
    (ascii "ZADD", fun args _ rng => zAddAction args rng),
    (ascii "ZREM", fun args _ _ => zRemAction args) ]

/-- What an entry of the table does: it writes to one key, or reads, or is one of
the three handlers for many keys. -/
theorem commandTable_spec : ∀ p ∈ commandTable,
    (∃ act, writeActions.lookup p.1 = some act ∧ ∀ ctx : CmdContext,
      Performs (CmdHandler.on p.2 ctx) ctx.now (ctx.arg 0) (act ctx.cmd.args ctx.now ctx.rng)) ∨
    writeActions.lookup p.1 = none ∧
      (Reads p.2 ∨ p = (ascii "DEL", delCmd) ∨ p = (ascii "EXISTS", existsCmd) ∨
        p = (ascii "KEYS", keysCmd)) := by
  obtain ⟨hping, hcommand, hquit⟩ := serverCmd_reads
  obtain ⟨hget, hexists, hkeys, hvals, hgetall, hlen, hstrlen⟩ := hashCmd_reads
  obtain ⟨hllen, hlrange, hlindex⟩ := listCmd_reads
  obtain ⟨hsismember, hsmembers, hscard⟩ := setCmd_reads
  obtain ⟨hzscore, hzrank, hzrevrank, hzcard⟩ := zSetCmd_reads
  obtain ⟨hzrange, hzrevrange⟩ := zRangeCmd_reads
  simp only [commandTable, List.forall_mem_cons, List.not_mem_nil, false_imp_iff, implies_true,
    and_true]
  exact ⟨.inr ⟨rfl, .inl hping⟩, .inr ⟨rfl, .inl hcommand⟩, .inr ⟨rfl, .inl hquit⟩,
    .inl ⟨_, rfl, setCmd_performs⟩, .inr ⟨rfl, .inl getCmd_reads.reads⟩,
    .inr ⟨rfl, .inr (.inl trivial)⟩, .inr ⟨rfl, .inr (.inr (.inl trivial))⟩,
    .inl ⟨_, rfl, expireWith_performs _ _⟩,
    .inr ⟨rfl, .inl (inspectKey_reads _ _)⟩, .inl ⟨_, rfl, expireWith_performs _ _⟩,
    .inr ⟨rfl, .inl (inspectKey_reads _ _)⟩, .inr ⟨rfl, .inl (inspectKey_reads _ _)⟩,
    .inr ⟨rfl, .inr (.inr (.inr trivial))⟩,
    .inl ⟨_, rfl, hSetCmd_performs⟩, .inr ⟨rfl, .inl hget.reads⟩, .inl ⟨_, rfl, hDelCmd_performs⟩,
    .inr ⟨rfl, .inl hexists.reads⟩, .inr ⟨rfl, .inl hkeys.reads⟩, .inr ⟨rfl, .inl hvals.reads⟩,
    .inr ⟨rfl, .inl hgetall.reads⟩, .inr ⟨rfl, .inl hlen.reads⟩, .inr ⟨rfl, .inl hstrlen.reads⟩,
    .inl ⟨_, rfl, pushWith_performs _ _⟩, .inl ⟨_, rfl, pushWith_performs _ _⟩,
    .inl ⟨_, rfl, popWith_performs _ _⟩, .inl ⟨_, rfl, popWith_performs _ _⟩,
    .inr ⟨rfl, .inl hllen.reads⟩, .inr ⟨rfl, .inl hlrange.reads⟩, .inr ⟨rfl, .inl hlindex.reads⟩,
    .inl ⟨_, rfl, sAddCmd_performs⟩, .inl ⟨_, rfl, sRemCmd_performs⟩,
    .inr ⟨rfl, .inl hsismember.reads⟩, .inr ⟨rfl, .inl hsmembers.reads⟩, .inr ⟨rfl, .inl hscard.reads⟩,
    .inl ⟨_, rfl, sPopCmd_performs⟩,
    .inl ⟨_, rfl, zAddCmd_performs⟩, .inl ⟨_, rfl, zRemCmd_performs⟩,
    .inr ⟨rfl, .inl hzscore.reads⟩, .inr ⟨rfl, .inl hzrank.reads⟩, .inr ⟨rfl, .inl hzrevrank.reads⟩,
    .inr ⟨rfl, .inl hzrange.reads⟩, .inr ⟨rfl, .inl hzrevrange.reads⟩, .inr ⟨rfl, .inl hzcard.reads⟩⟩

/-- **The handlers by what they do**, for a name that is registered. -/
theorem findHandler_spec {name : Bytes} {h : CmdHandler} (hf : findHandler name = some h) :
    (∃ act, writeActions.lookup name = some act ∧ ∀ ctx : CmdContext,
      Performs (CmdHandler.on h ctx) ctx.now (ctx.arg 0) (act ctx.cmd.args ctx.now ctx.rng)) ∨
    writeActions.lookup name = none ∧
      (Reads h ∨ name = ascii "DEL" ∧ h = delCmd ∨ name = ascii "EXISTS" ∧ h = existsCmd ∨
        name = ascii "KEYS" ∧ h = keysCmd) := by
  simpa only [Prod.mk.injEq] using commandTable_spec _ (mem_of_lookup_eq_some hf)

end RedisLike
