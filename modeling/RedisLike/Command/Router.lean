import RedisLike.Expire
import RedisLike.Resp.Codec

/-!
# RedisLike.Command.Router

The frame of a command: the context of `router.h`, the helpers that the four
type-specific command files share, and `Normalize`.

A handler takes the context and returns the reply and the `Dict` it leaves.
The random choices of a command are read from `rng`: `rng i` is the stream of
random words behind its `i`-th choice.
-/

namespace RedisLike

/-- `CmdContext`. -/
structure CmdContext where
  db : Dict
  cmd : RespCommand
  now : TimePoint
  rng : Nat → Nat → Nat

/-- `CmdHandler`. -/
abbrev CmdHandler := CmdContext → Bytes × Dict

/-- `CommandRouter::Normalize`. -/
def normalize (name : Bytes) : Bytes := name.map toUpper

namespace CmdContext

/-- `ctx.cmd.args[i]`; no handler reads behind the last argument. -/
def arg (ctx : CmdContext) (i : Nat) : Bytes := ctx.cmd.args.getD i []

/-- `CheckExpire`. -/
def checkExpire (ctx : CmdContext) (key : Bytes) : Dict := (lazyCheck ctx.db key ctx.now).2

end CmdContext

/-- The reply to a command addressed to a key of another type. -/
def wrongType : Bytes :=
  RespCodec.error (ascii "WRONGTYPE Operation against a key holding the wrong kind of value")

/-! ## Objects of one type -/

/-- `GetHash`, `GetList`, `GetSet` and `GetZSet`: the object of a key and its
value as the type of `as`, or `none` when the key is missing or of another
type. -/
def getObject {α : Type} (as : ValueVariant → Option α) (ctx : CmdContext) (key : Bytes) :
    Option (RedisObject × α) × Dict :=
  let db := ctx.checkExpire key
  match db.get key with
  | none => (none, db)
  | some obj => ((as obj.value).map fun v => (obj, v), db)

/-- `GetOrCreateHash`, `GetOrCreateList`, `GetOrCreateSet` and
`GetOrCreateZSet`: a missing key gets the object `fresh`. -/
def getOrCreateObject {α : Type} (as : ValueVariant → Option α) (fresh : RedisObject)
    (ctx : CmdContext) (key : Bytes) : Option (RedisObject × α) × Dict :=
  let db := ctx.checkExpire key
  match db.get key with
  | none => ((as fresh.value).map fun v => (fresh, v), db.set key fresh)
  | some obj => ((as obj.value).map fun v => (obj, v), db)

/-- `if (!obj) return absent;`, and the rest of the handler. -/
def orReply {α : Type} (r : Option (RedisObject × α) × Dict) (absent : Bytes)
    (rest : RedisObject → α → Dict → Bytes × Dict) : Bytes × Dict :=
  match r with
  | (none, db) => (absent, db)
  | (some (obj, v), db) => rest obj v db

/-- The shape of a command that reads an object of one type: the reply when
there is none, or the one computed from its value. -/
def readObject {α : Type} (as : ValueVariant → Option α) (ctx : CmdContext) (key absent : Bytes)
    (present : α → Bytes) : Bytes × Dict :=
  orReply (getObject as ctx key) absent fun _ v db => (present v, db)

/-- `RespCodec::Integer(b ? 1 : 0)`. -/
def boolReply (b : Bool) : Bytes := RespCodec.integer (if b then 1 else 0)

/-- An array of bulk strings. -/
def bulkArray (items : List Bytes) : Bytes := RespCodec.array (items.map RespCodec.bulkString)

end RedisLike
