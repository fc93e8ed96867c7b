import RedisLike.Command.Table
import RedisLike.Storage.Rdb
import RedisLike.Storage.Aof

/-!
# RedisLike.Server

The server of `server.h` and `server.cpp`, behind its sockets: the processing of
a command, and what `Stop` and `LoadPersistedData` do with the two files.

The time a command reads from the clock and its random words come with it, as a
`Moment`.  Writes to the files succeed.
-/

namespace RedisLike

/-- What a command reads from outside: the clock, and random words. -/
structure Moment where
  now : TimePoint
  rng : Nat → Nat → Nat

/-- One call of `ProcessCommand`. -/
structure Step extends Moment where
  cmd : RespCommand

/-- `ctx` of `ProcessCommand`. -/
def Step.context (step : Step) (db : Dict) : CmdContext := ⟨db, step.cmd, step.now, step.rng⟩

/-- `Client`, without its socket. -/
structure Client where
  codec : RespCodec := {}
  writeBuf : Bytes := []
  closeAfterWrite : Bool := false
  writableMask : Bool := false

/-- `dump.rdb` and `appendonly.aof`; `none` is a file that is not there. -/
structure Files where
  dump : Option Bytes := none
  appendonly : Option Bytes := none

/-- `RedisServer`: its key space, and the files as they are while it runs. -/
structure RedisServer where
  db : Dict
  dump : Option Bytes
  log : Bytes

namespace RedisServer

/-- The constructor: `aof_.Open()` creates the log, if it is not there. -/
def new (files : Files) : RedisServer := ⟨∅, files.dump, files.appendonly.getD []⟩

/-! ## Commands -/

/-- The response of `ProcessCommand`, and the key space behind it. -/
def response (db : Dict) (step : Step) : Bytes × Dict :=
  let name := normalize step.cmd.name
  if name = ascii "QUIT" then (RespCodec.ok, db)
  else if commandExists name then execute (step.context db)
  else (unknownCommand step.cmd.name, db)

/-- Whether `ProcessCommand` appends the command to the log. -/
def logs (db : Dict) (step : Step) : Bool :=
  AofLogger.isWriteCommand (normalize step.cmd.name) &&
    !(ascii "-ERR").isPrefixOf (response db step).1

/-- `AppendToAof`. -/
def appendToAof (server : RedisServer) (cmd : RespCommand) : RedisServer :=
  { server with log := server.log ++ cmd.encode }

/-- `ProcessCommand`, on the server. -/
def process (server : RedisServer) (step : Step) : RedisServer :=
  let next := { server with db := (response server.db step).2 }
  if logs server.db step then next.appendToAof step.cmd else next

/-- `ProcessCommand`. -/
def processCommand (client : Client) (server : RedisServer) (step : Step) : Client × RedisServer :=
  ({ client with
      writeBuf := client.writeBuf ++ (response server.db step).1
      closeAfterWrite := client.closeAfterWrite || normalize step.cmd.name = ascii "QUIT" },
    server.process step)

/-- Commands processed one after another, of whatever clients. -/
def run (server : RedisServer) (steps : List Step) : RedisServer := steps.foldl process server

/-! ## Persistence -/

/-- `Stop`, as far as the files go. -/
def stop (server : RedisServer) : Files :=
  ⟨if server.db.size > 0 then some (RdbSaver.save server.db) else server.dump, some server.log⟩

/-- The callback of `LoadPersistedData`, which counts the times that it reads
the clock. -/
def replayCommand (moments : Nat → Moment) : Nat × Dict → RespCommand → Nat × Dict
  | (i, db), cmd =>
    let name := normalize cmd.name
    if name = ascii "QUIT" ∨ name = ascii "PING" ∨ name = ascii "COMMAND" then (i, db)
    else if commandExists name then
      (i + 1, (execute ⟨db, cmd, (moments i).now, (moments i).rng⟩).2)
    else (i + 1, db)

/-- The replay of a log in `LoadPersistedData`. -/
def replayLog (moments : Nat → Moment) (log : Bytes) (db : Dict) : Dict :=
  (AofLogger.replay (some log) (replayCommand moments) (0, db)).2.2

/-- `LoadPersistedData`; `rng` are the random words of `Load`. -/
def loadPersistedData (server : RedisServer) (rng : Nat → Nat → Nat → Nat)
    (moments : Nat → Moment) : RedisServer :=
  { server with
    db := replayLog moments server.log (RdbSaver.load rng server.dump server.db).2 }

end RedisServer

end RedisLike
