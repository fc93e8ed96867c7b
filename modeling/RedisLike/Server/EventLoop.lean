import RedisLike.Resp.Parser
import RedisLike.Server

/-!
# RedisLike.Server.EventLoop

The server behind its sockets: the masks of `event_loop.cpp`, and the callbacks
of `server.cpp` that read from a client, flush its buffer and close it.

What the operating system answers comes with an event: the bytes of `recv`, and
the result of `send`.  What a callback does to the outside is its `Output`: each
function returns its part of it, where it does it.
-/

namespace RedisLike

/-- `kEventReadable` and `kEventWritable`. -/
structure EventMask where
  readable : Bool
  writable : Bool
deriving DecidableEq

/-- `EventLoop`: the masks of `events_`. -/
structure EventLoop where
  events : UnorderedMap Nat EventMask := ∅

namespace EventLoop

/-- `EventLoop::AddEvent`. -/
def addEvent (loop : EventLoop) (fd : Nat) (mask : EventMask) : EventLoop :=
  ⟨loop.events.insert fd mask⟩

/-- `EventLoop::RemoveEvent`. -/
def removeEvent (loop : EventLoop) (fd : Nat) : EventLoop := ⟨loop.events.erase fd⟩

/-- `EventLoop::ModifyMask`. -/
def modifyMask (loop : EventLoop) (fd : Nat) (mask : EventMask) : EventLoop :=
  match loop.events.lookup fd with
  | none => loop
  | some _ => ⟨loop.events.insert fd mask⟩

end EventLoop

/-- A call of `send`: for each buffer, how many bytes it takes, or a negative
result. -/
structure SendCall where
  sent : Bytes → Int
  le_length : ∀ buf, sent buf ≤ buf.length

/-- The bytes of the buffer that the call takes. -/
def SendCall.taken (send : SendCall) (buf : Bytes) : Bytes := buf.take (send.sent buf).toNat

/-- What the operating system has for one callback of a client: whether the
socket is readable, the bytes of `recv` (none when it returns 0 or -1), the
result of `send`, and the clock and random words of each command. -/
structure ClientEvent where
  readable : Bool
  received : Bytes
  moments : Nat → Moment
  send : SendCall

/-- What a callback of a client does to the outside: the chunk that `recv` has
returned, the commands that are processed, each with the key space it meets, the
bytes that `send` has taken, and the client that is closed, as it was then. -/
structure Output where
  received : List Bytes := []
  served : List (Dict × Step) := []
  sent : Bytes := []
  closed : Option Client := none

/-- `RedisServer` with its event loop and its clients. -/
structure Network where
  server : RedisServer
  loop : EventLoop := {}
  clients : UnorderedMap Nat Client := ∅

namespace Network

/-- The loop over the commands of a batch in `OnClientEvent`, and what it serves. -/
def processCommands (moments : Nat → Moment) :
    Nat → List RespCommand → Client × RedisServer → (Client × RedisServer) × List (Dict × Step)
  | _, [], s => (s, [])
  | i, cmd :: cmds, (client, server) =>
    let r := processCommands moments (i + 1) cmds
      (RedisServer.processCommand client server ⟨moments i, cmd⟩)
    (r.1, (server.db, ⟨moments i, cmd⟩) :: r.2)

/-- The readable part of `OnClientEvent`, and what it serves. -/
def readEvent (client : Client) (server : RedisServer) (ev : ClientEvent) :
    (Client × RedisServer) × List (Dict × Step) :=
  if ev.readable then
    let r := client.codec.feed ev.received
    processCommands ev.moments 0 r.1 ({ client with codec := r.2 }, server)
  else ((client, server), [])

/-- `if (!client.writable_mask) ...`: interest in writing, switched on. -/
def wantWrite (loop : EventLoop) (fd : Nat) (client : Client) : Client × EventLoop :=
  if client.writableMask then (client, loop)
  else ({ client with writableMask := true }, loop.modifyMask fd ⟨true, true⟩)

/-- `FlushWriteBuf`, and the bytes that `send` takes. -/
def flushWriteBuf (loop : EventLoop) (fd : Nat) (client : Client) (send : SendCall) :
    (Client × EventLoop) × Bytes :=
  if client.writeBuf.isEmpty then ((client, loop), [])
  else
    let sent := send.sent client.writeBuf
    let taken := send.taken client.writeBuf
    if sent < 0 then (wantWrite loop fd client, taken)
    else
      let client := { client with writeBuf := client.writeBuf.drop sent.toNat }
      if !client.writeBuf.isEmpty then (wantWrite loop fd client, taken)
      else if client.writableMask then
        (({ client with writableMask := false }, loop.modifyMask fd ⟨true, false⟩), taken)
      else ((client, loop), taken)

/-- `CloseClient`, and the client that it erases. -/
def closeClient (net : Network) (fd : Nat) : Network × Option Client :=
  ({ net with loop := net.loop.removeEvent fd, clients := net.clients.erase fd },
    net.clients.lookup fd)

/-- The condition under which `OnClientEvent` closes a client that sent `QUIT`. -/
def finished (client : Client) : Bool := client.closeAfterWrite && client.writeBuf.isEmpty

/-- `OnClientEvent`. -/
def onClientEvent (net : Network) (fd : Nat) (ev : ClientEvent) : Network × Output :=
  match net.clients.lookup fd with
  | none => (net, {})
  | some client =>
    if ev.readable && ev.received.isEmpty then
      let c := net.closeClient fd
      (c.1, { closed := c.2 })
    else
      let r := readEvent client net.server ev
      let f := flushWriteBuf net.loop fd r.1.1 ev.send
      let net : Network := ⟨r.1.2, f.1.2, net.clients.insert fd f.1.1⟩
      let c := if finished f.1.1 then net.closeClient fd else (net, none)
      (c.1, ⟨if ev.readable then [ev.received] else [], r.2, f.2, c.2⟩)

/-- `EventLoop::Dispatch` to the callback of a client. -/
def dispatch (net : Network) (fd : Nat) (ev : ClientEvent) : Network × Output :=
  match net.loop.events.lookup fd with
  | none => (net, {})
  | some _ => net.onClientEvent fd ev

/-- One connection of the loop of `OnAccept`. -/
def onAccept (net : Network) (fd : Nat) : Network :=
  { net with
    clients := net.clients.insert fd {}
    loop := net.loop.addEvent fd ⟨true, false⟩ }

/-- What happens to the server: a connection, a callback of a client, or
`PeriodicExpireCheck`, of which only matters that it may change the key space. -/
inductive Event where
  | accept (fd : Nat)
  | client (fd : Nat) (ev : ClientEvent)
  | periodicExpireCheck (check : Dict → Dict)

/-- One event, and its output. -/
def step (net : Network) : Event → Network × Output
  | .accept fd => (net.onAccept fd, {})
  | .client fd ev => net.dispatch fd ev
  | .periodicExpireCheck check =>
    ({ net with server := { net.server with db := check net.server.db } }, {})

end Network

end RedisLike
