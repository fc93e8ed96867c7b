import RedisLike.Command.Router
import RedisLike.Resp.RoundTrip

/-!
# RedisLike.Storage.Aof

The log of `aof.h` and `aof.cpp`: which commands it takes, and `Replay`.
-/

namespace RedisLike

namespace AofLogger

/-- `writes`. -/
def writes : List Bytes :=
  [ ascii "SET", ascii "DEL",
    ascii "HSET", ascii "HDEL",
    ascii "LPUSH", ascii "RPUSH", ascii "LPOP", ascii "RPOP",
    ascii "SADD", ascii "SREM", ascii "SPOP",
    ascii "ZADD", ascii "ZREM",
    ascii "EXPIRE", ascii "PEXPIRE" ]

/-- `AofLogger::IsWriteCommand`. -/
def isWriteCommand (name : Bytes) : Bool := name.map toUpper ∈ writes

/-- `AofLogger::Replay`: the number of commands in the file, and what the
callback makes of those with a name.  `none` is a file that cannot be opened. -/
def replay {σ : Type} (file : Option Bytes) (callback : σ → RespCommand → σ) (s : σ) : Nat × σ :=
  match file with
  | none => (0, s)
  | some content =>
    let cmds := (RespCodec.feed {} content).1
    (cmds.length, (cmds.filter fun cmd => !cmd.name.isEmpty).foldl callback s)

end AofLogger

end RedisLike
