import RedisLike.Server.EventLoop

/-!
# RedisLike.Server.Streams

The output of every client is complete and in order (`run_streams`).

Whatever `send` takes, what it took so far and what is still in `write_buf` are
together the replies to the commands decoded from that client, and the event
loop watches for writing exactly while something is left.  `Connection` keeps the
outputs of the steps.  `Stream` is the invariant of one connection, `Streams` that
of the server; each callback keeps it, since the callbacks of other clients leave
a connection alone, and a callback that closes its client says in which state it
found it (`onClientEvent_closes`).
-/

namespace RedisLike

/-- What passed over a connection since it was accepted: the chunks of `recv`,
each command with the key space it was processed on, and the bytes `send` took. -/
structure Connection where
  received : List Bytes := []
  served : List (Dict × Step) := []
  accepted : Bytes := []

namespace Connection

/-- The commands of a connection. -/
def commands (conn : Connection) : List RespCommand := conn.served.map fun s => s.2.cmd

/-- The replies to the commands of a connection, one after another. -/
def replies (conn : Connection) : Bytes :=
  (conn.served.map fun s => (RedisServer.response s.1 s.2).1).flatten

/-- A connection behind the output of a callback. -/
def after (conn : Connection) (out : Output) : Connection :=
  ⟨conn.received ++ out.received, conn.served ++ out.served, conn.accepted ++ out.sent⟩

@[simp] theorem after_empty (conn : Connection) : conn.after {} = conn := by simp [after]

end Connection

namespace Network

/-- The connections behind an event with its output. -/
def record (conns : Nat → Connection) (out : Output) : Event → Nat → Connection
  | .accept fd => Function.update conns fd {}
  | .client fd _ => Function.update conns fd ((conns fd).after out)
  | .periodicExpireCheck _ => conns

/-- An event of a run: the server takes a step, and its output is recorded. -/
def observe (s : Network × (Nat → Connection)) (e : Event) : Network × (Nat → Connection) :=
  ((s.1.step e).1, record s.2 (s.1.step e).2 e)

/-- A server that nobody is connected to, and its connections, after a run of events. -/
def serve (server : RedisServer) (events : List Event) : Network × (Nat → Connection) :=
  events.foldl observe (⟨server, {}, ∅⟩, fun _ => {})

/-! ## A batch -/

/-- A batch appends the replies to what it serves, which are all of its commands,
and touches nothing else of the client but the wish to close. -/
structure Batched (client : Client) (cmds : List RespCommand)
    (r : (Client × RedisServer) × List (Dict × Step)) : Prop where
  commands : r.2.map (fun s => s.2.cmd) = cmds
  output : r.1.1.writeBuf =
    client.writeBuf ++ (r.2.map fun s => (RedisServer.response s.1 s.2).1).flatten
  codec : r.1.1.codec = client.codec
  mask : r.1.1.writableMask = client.writableMask
  quit : r.1.1.closeAfterWrite = true →
    client.closeAfterWrite = true ∨ ∃ cmd ∈ cmds, normalize cmd.name = ascii "QUIT"

theorem processCommands_batched (moments : Nat → Moment) (i : Nat) (cmds : List RespCommand)
    (client : Client) (server : RedisServer) :
    Batched client cmds (processCommands moments i cmds (client, server)) := by
  induction cmds generalizing i client server with
  | nil => exact ⟨rfl, (List.append_nil _).symm, rfl, rfl, .inl⟩
  | cons cmd cmds ih =>
      obtain ⟨hcommands, hbuf, hcodec, hmask, hquit⟩ := ih (i + 1)
        (RedisServer.processCommand client server ⟨moments i, cmd⟩).1
        (server.process ⟨moments i, cmd⟩)
      rw [processCommands]
      refine ⟨?_, hbuf.trans ?_, hcodec, hmask, fun hclose => ?_⟩
      · rw [List.map_cons]
        exact congrArg _ hcommands
      · rw [List.map_cons, List.flatten_cons, ← List.append_assoc]
        rfl
      · obtain hcmd | ⟨cmd', hmem, hname⟩ := hquit hclose
        · obtain hbefore | hname := Bool.or_eq_true_iff.mp hcmd
          · exact .inl hbefore
          · exact .inr ⟨cmd, List.mem_cons_self, of_decide_eq_true hname⟩
        · exact .inr ⟨cmd', List.mem_cons_of_mem cmd hmem, hname⟩

/-! ## A flush -/

theorem lookup_modifyMask (loop : EventLoop) (fd : Nat) (mask : EventMask) (fd' : Nat) :
    (loop.modifyMask fd mask).events.lookup fd' =
      if fd' = fd then (loop.events.lookup fd).map fun _ => mask else loop.events.lookup fd' := by
  rw [EventLoop.modifyMask]
  cases h : loop.events.lookup fd with
  | none =>
      by_cases hfd : fd' = fd
      · rw [if_pos hfd, hfd, h, Option.map_none]
      · rw [if_neg hfd]
  | some m =>
      rw [Option.map_some]
      exact UnorderedMap.lookup_insert_eq fd' fd mask loop.events

/-- The event loop watches a client as its `writable_mask` says. -/
def Watched (loop : EventLoop) (fd : Nat) (client : Client) : Prop :=
  loop.events.lookup fd = some ⟨true, client.writableMask⟩

theorem wantWrite_spec {loop : EventLoop} {fd : Nat} {client : Client}
    (h : Watched loop fd client) :
    (wantWrite loop fd client).1.writableMask = true ∧
      Watched (wantWrite loop fd client).2 fd (wantWrite loop fd client).1 := by
  rw [wantWrite]
  split
  · next hmask => exact ⟨hmask, h⟩
  · exact ⟨rfl, by rw [Watched, lookup_modifyMask, if_pos rfl, h]; rfl⟩

/-- Nothing else of the client is touched. -/
theorem wantWrite_fst (loop : EventLoop) (fd : Nat) (client : Client) :
    (wantWrite loop fd client).1.writeBuf = client.writeBuf ∧
      (wantWrite loop fd client).1.codec = client.codec ∧
      (wantWrite loop fd client).1.closeAfterWrite = client.closeAfterWrite := by
  rw [wantWrite]
  split <;> exact ⟨rfl, rfl, rfl⟩

theorem wantWrite_frame (loop : EventLoop) {fd fd' : Nat} (client : Client) (h : fd' ≠ fd) :
    (wantWrite loop fd client).2.events.lookup fd' = loop.events.lookup fd' := by
  rw [wantWrite]
  split
  · rfl
  · rw [lookup_modifyMask, if_neg h]

/-- What a flush leaves: nothing is lost or sent twice, and the interest in
writing is on exactly if something is left. -/
structure Flushed (client : Client) (fd : Nat) (r : (Client × EventLoop) × Bytes) : Prop where
  output : r.2 ++ r.1.1.writeBuf = client.writeBuf
  codec : r.1.1.codec = client.codec
  quit : r.1.1.closeAfterWrite = client.closeAfterWrite
  interest : r.1.1.writableMask = true ↔ r.1.1.writeBuf ≠ []
  watched : Watched r.1.2 fd r.1.1

/-- What `send` takes, and what is left, is what was there. -/
theorem flushWriteBuf_output (loop : EventLoop) (fd : Nat) (client : Client) (send : SendCall) :
    (flushWriteBuf loop fd client send).2 ++ (flushWriteBuf loop fd client send).1.1.writeBuf =
      client.writeBuf := by
  have hsplit := List.take_append_drop (send.sent client.writeBuf).toNat client.writeBuf
  rw [flushWriteBuf]
  split
  · rfl
  · dsimp only
    split
    · next hneg =>
      have hzero : (send.sent client.writeBuf).toNat = 0 := by omega
      rw [SendCall.taken, hzero, List.take_zero]
      exact (wantWrite_fst loop fd client).1
    · split
      · rw [(wantWrite_fst loop fd _).1]
        exact hsplit
      · split <;> exact hsplit

/-- **A flush**, whatever `send` returns. -/
theorem flushWriteBuf_spec {loop : EventLoop} {fd : Nat} {client : Client} (send : SendCall)
    (hwatched : Watched loop fd client)
    (hmask : client.writableMask = true → client.writeBuf ≠ []) :
    Flushed client fd (flushWriteBuf loop fd client send) := by
  have houtput := flushWriteBuf_output loop fd client send
  revert houtput
  rw [flushWriteBuf]
  by_cases hempty : client.writeBuf = []
  · rw [if_pos (List.isEmpty_iff.mpr hempty)]
    exact fun houtput => ⟨houtput, rfl, rfl, ⟨hmask, fun h => absurd hempty h⟩, hwatched⟩
  rw [if_neg (by rwa [List.isEmpty_iff])]
  by_cases hsent : send.sent client.writeBuf < 0
  · -- nothing taken: the whole buffer waits
    obtain ⟨hon, hwatch⟩ := wantWrite_spec hwatched
    obtain ⟨hbuf, hcodec, hquit⟩ := wantWrite_fst loop fd client
    rw [if_pos hsent]
    exact fun houtput => ⟨houtput, hcodec, hquit, ⟨fun _ => hbuf ▸ hempty, fun _ => hon⟩, hwatch⟩
  rw [if_neg hsent]
  by_cases hrest : client.writeBuf.drop (send.sent client.writeBuf).toNat = []
  · rw [if_neg (by simp [hrest])]
    by_cases hwrite : client.writableMask = true
    · rw [if_pos hwrite]
      refine fun houtput => ⟨houtput, rfl, rfl, ⟨nofun, fun h => absurd hrest h⟩, ?_⟩
      rw [Watched, lookup_modifyMask, if_pos rfl, hwatched]
      rfl
    · rw [if_neg hwrite]
      exact fun houtput =>
        ⟨houtput, rfl, rfl, ⟨fun h => absurd h hwrite, fun h => absurd hrest h⟩, hwatched⟩
  · -- a part taken: the rest waits
    rw [if_pos (by simpa using hrest)]
    obtain ⟨hon, hwatch⟩ := @wantWrite_spec loop fd
      { client with writeBuf := client.writeBuf.drop (send.sent client.writeBuf).toNat } hwatched
    obtain ⟨hbuf, hcodec, hquit⟩ := wantWrite_fst loop fd
      { client with writeBuf := client.writeBuf.drop (send.sent client.writeBuf).toNat }
    exact fun houtput => ⟨houtput, hcodec, hquit, ⟨fun _ => hbuf ▸ hrest, fun _ => hon⟩, hwatch⟩

theorem flushWriteBuf_frame (loop : EventLoop) {fd fd' : Nat} (client : Client) (send : SendCall)
    (h : fd' ≠ fd) :
    (flushWriteBuf loop fd client send).1.2.events.lookup fd' = loop.events.lookup fd' := by
  rw [flushWriteBuf]
  split
  · rfl
  · dsimp only
    split
    · exact wantWrite_frame loop client h
    · split
      · exact wantWrite_frame loop _ h
      · split
        · rw [lookup_modifyMask, if_neg h]
        · rfl

/-! ## A callback -/

end Network

theorem RespCodec.feedChunks_concat (codec : RespCodec) (chunks : List Bytes) (chunk : Bytes) :
    codec.feedChunks (chunks ++ [chunk]) =
      ((codec.feedChunks chunks).1 ++ ((codec.feedChunks chunks).2.feed chunk).1,
        ((codec.feedChunks chunks).2.feed chunk).2) := by
  induction chunks generalizing codec with
  | nil => simp [RespCodec.feedChunks]
  | cons c chunks ih =>
      rw [List.cons_append, RespCodec.feedChunks, ih, RespCodec.feedChunks]
      simp only [List.append_assoc]

/-- What passed over a connection fits together: its commands are those decoded
from the chunks, with `codec` left over, and the bytes sent and those in
`writeBuf` are their replies. -/
structure Stream (conn : Connection) (codec : RespCodec) (writeBuf : Bytes) : Prop where
  commands : RespCodec.feedChunks {} conn.received = (conn.commands, codec)
  output : conn.accepted ++ writeBuf = conn.replies

namespace Network

/-- A client that is connected. -/
structure Connected (loop : EventLoop) (fd : Nat) (conn : Connection) (client : Client) :
    Prop where
  stream : Stream conn client.codec client.writeBuf
  interest : client.writableMask = true ↔ client.writeBuf ≠ []
  watched : Watched loop fd client
  quit : client.closeAfterWrite = true →
    ∃ cmd ∈ conn.commands, normalize cmd.name = ascii "QUIT"

/-- The readable part of a callback decodes the commands of the next chunk, and serves
them. -/
theorem readEvent_batched (client : Client) (server : RedisServer) (ev : ClientEvent) :
    ∃ cmds codec, Batched { client with codec := codec } cmds (readEvent client server ev) ∧
      ∀ {conn : Connection},
        RespCodec.feedChunks {} conn.received = (conn.commands, client.codec) →
        RespCodec.feedChunks {} (conn.received ++ if ev.readable then [ev.received] else []) =
          (conn.commands ++ cmds, codec) := by
  rw [readEvent]
  by_cases hread : ev.readable = true
  · rw [if_pos hread, if_pos hread]
    refine ⟨_, _, processCommands_batched ev.moments 0 _ _ server, fun h => ?_⟩
    rw [RespCodec.feedChunks_concat, h]
  · rw [if_neg hread, if_neg hread]
    refine ⟨[], client.codec, ⟨rfl, (List.append_nil _).symm, rfl, rfl, .inl⟩, fun h => ?_⟩
    rw [List.append_nil, List.append_nil, h]

theorem readEvent_writeBuf (client : Client) (server : RedisServer) (ev : ClientEvent) :
    (readEvent client server ev).1.1.writeBuf = client.writeBuf ++
      ((readEvent client server ev).2.map fun s => (RedisServer.response s.1 s.2).1).flatten := by
  obtain ⟨cmds, codec, hbatch, -⟩ := readEvent_batched client server ev
  exact hbatch.output

/-- What a callback leaves of a client that does not hang up. -/
def flushed (net : Network) (fd : Nat) (client : Client) (ev : ClientEvent) :
    (Client × EventLoop) × Bytes :=
  flushWriteBuf net.loop fd (readEvent client net.server ev).1.1 ev.send

/-- The flush of a callback: the buffer it flushes only grew, so what was switched on
still has a reason. -/
theorem flushed_spec {net : Network} {fd : Nat} {client : Client} (ev : ClientEvent)
    (hinterest : client.writableMask = true ↔ client.writeBuf ≠ [])
    (hwatched : Watched net.loop fd client) :
    Flushed (readEvent client net.server ev).1.1 fd (flushed net fd client ev) := by
  obtain ⟨cmds, codec, hbatch, -⟩ := readEvent_batched client net.server ev
  refine flushWriteBuf_spec ev.send ?_ ?_
  · rw [Watched, hbatch.mask]
    exact hwatched
  · rw [hbatch.mask, hbatch.output]
    intro hon hnil
    exact hinterest.mp hon (List.append_eq_nil_iff.mp hnil).1

/-- The output of a callback of a client that does not hang up. -/
def output (net : Network) (fd : Nat) (client : Client) (ev : ClientEvent)
    (closed : Option Client) : Output :=
  ⟨if ev.readable then [ev.received] else [], (readEvent client net.server ev).2,
    (flushed net fd client ev).2, closed⟩

/-- **A callback of the client itself** that does not end at `recv`. -/
theorem connected_flushed {net : Network} {fd : Nat} {conn : Connection} {client : Client}
    (ev : ClientEvent) (closed : Option Client) (h : Connected net.loop fd conn client) :
    Connected (flushed net fd client ev).1.2 fd (conn.after (output net fd client ev closed))
      (flushed net fd client ev).1.1 := by
  obtain ⟨cmds, codec, hbatch, hdecode⟩ := readEvent_batched client net.server ev
  have hflush := flushed_spec ev h.interest h.watched
  have hcommands :
      (conn.after (output net fd client ev closed)).commands = conn.commands ++ cmds := by
    rw [← hbatch.commands]
    exact List.map_append
  refine ⟨⟨?_, ?_⟩, hflush.interest, hflush.watched, fun hclose => ?_⟩
  · rw [hflush.codec, hbatch.codec, hcommands]
    exact hdecode h.stream.commands
  · calc (conn.after (output net fd client ev closed)).accepted ++
          (flushed net fd client ev).1.1.writeBuf
        = conn.accepted ++ (readEvent client net.server ev).1.1.writeBuf := by
          rw [← hflush.output, ← List.append_assoc]
          rfl
      _ = conn.accepted ++ client.writeBuf ++ _ := by rw [hbatch.output, List.append_assoc]
      _ = conn.replies ++ _ := by rw [h.stream.output]
      _ = _ := by
          rw [Connection.replies, Connection.replies, ← List.flatten_append, ← List.map_append]
          rfl
  · rw [hflush.quit] at hclose
    rw [hcommands]
    obtain hbefore | ⟨cmd, hmem, hname⟩ := hbatch.quit hclose
    · obtain ⟨cmd, hmem, hname⟩ := h.quit hbefore
      exact ⟨cmd, List.mem_append_left _ hmem, hname⟩
    · exact ⟨cmd, List.mem_append_right _ hmem, hname⟩

/-! ## The cases of a callback -/

theorem onClientEvent_of_none {net : Network} {fd : Nat} (hclient : net.clients.lookup fd = none)
    (ev : ClientEvent) : net.onClientEvent fd ev = (net, {}) := by
  rw [onClientEvent, hclient]

/-- The client has hung up. -/
theorem onClientEvent_of_hangup {net : Network} {fd : Nat} {client : Client} {ev : ClientEvent}
    (hclient : net.clients.lookup fd = some client)
    (hev : (ev.readable && ev.received.isEmpty) = true) :
    net.onClientEvent fd ev = ((net.closeClient fd).1, { closed := some client }) := by
  rw [onClientEvent, hclient]
  dsimp only
  rw [if_pos hev, closeClient, hclient]

/-- The client is served and flushed, and closed if it is finished then. -/
theorem onClientEvent_of_open {net : Network} {fd : Nat} {client : Client} {ev : ClientEvent}
    (hclient : net.clients.lookup fd = some client)
    (hev : ¬ (ev.readable && ev.received.isEmpty) = true) :
    net.onClientEvent fd ev =
      let served : Network := ⟨(readEvent client net.server ev).1.2,
        (flushed net fd client ev).1.2, net.clients.insert fd (flushed net fd client ev).1.1⟩
      if finished (flushed net fd client ev).1.1 then
        ((served.closeClient fd).1,
          output net fd client ev (some (flushed net fd client ev).1.1))
      else (served, output net fd client ev none) := by
  rw [onClientEvent, hclient]
  dsimp only
  rw [if_neg hev, closeClient, AList.lookup_insert, flushed]
  split <;> rfl

/-- A callback does to the server what its readable part does, if it comes to that. -/
theorem onClientEvent_reads (net : Network) (fd : Nat) (ev : ClientEvent) :
    (net.onClientEvent fd ev).1.server = net.server ∧ (net.onClientEvent fd ev).2.served = [] ∨
      ∃ client, (net.onClientEvent fd ev).1.server = (readEvent client net.server ev).1.2 ∧
        (net.onClientEvent fd ev).2.served = (readEvent client net.server ev).2 := by
  cases hclient : net.clients.lookup fd with
  | none =>
      rw [onClientEvent_of_none hclient]
      exact .inl ⟨rfl, rfl⟩
  | some client =>
      by_cases hev : (ev.readable && ev.received.isEmpty) = true
      · rw [onClientEvent_of_hangup hclient hev]
        exact .inl ⟨rfl, rfl⟩
      · rw [onClientEvent_of_open hclient hev]
        refine .inr ⟨client, ?_⟩
        dsimp only
        split <;> exact ⟨rfl, rfl⟩

/-- A callback leaves the other descriptors alone. -/
theorem onClientEvent_frame (net : Network) {fd fd' : Nat} (h : fd' ≠ fd) (ev : ClientEvent) :
    (net.onClientEvent fd ev).1.clients.lookup fd' = net.clients.lookup fd' ∧
      (net.onClientEvent fd ev).1.loop.events.lookup fd' = net.loop.events.lookup fd' := by
  have hclose : ∀ n : Network, (n.closeClient fd).1.clients.lookup fd' = n.clients.lookup fd' ∧
      (n.closeClient fd).1.loop.events.lookup fd' = n.loop.events.lookup fd' :=
    fun n => ⟨AList.lookup_erase_ne h, AList.lookup_erase_ne h⟩
  cases hclient : net.clients.lookup fd with
  | none =>
      rw [onClientEvent_of_none hclient]
      exact ⟨rfl, rfl⟩
  | some client =>
      by_cases hev : (ev.readable && ev.received.isEmpty) = true
      · rw [onClientEvent_of_hangup hclient hev]
        exact hclose net
      have hflush := flushWriteBuf_frame net.loop (readEvent client net.server ev).1.1 ev.send h
      have hinsert := @AList.lookup_insert_ne _ _ _ _ _ (flushed net fd client ev).1.1
        net.clients h
      rw [onClientEvent_of_open hclient hev]
      dsimp only
      split
      · exact ⟨(hclose _).1.trans hinsert, (hclose _).2.trans hflush⟩
      · exact ⟨hinsert, hflush⟩

/-! ## All clients -/

/-- **The invariant of the server.** -/
def Streams (net : Network) (conns : Nat → Connection) : Prop :=
  ∀ fd client, net.clients.lookup fd = some client → Connected net.loop fd (conns fd) client

/-- A connection is not touched by what happens to another. -/
theorem Streams.frame {net net' : Network} {conns conns' : Nat → Connection} {fd : Nat}
    (h : Streams net conns)
    (hother : ∀ fd', fd' ≠ fd → net'.clients.lookup fd' = net.clients.lookup fd' ∧
      net'.loop.events.lookup fd' = net.loop.events.lookup fd')
    (hconns : ∀ fd', fd' ≠ fd → conns' fd' = conns fd')
    (hself : ∀ client, net'.clients.lookup fd = some client →
      Connected net'.loop fd (conns' fd) client) : Streams net' conns' := by
  intro fd' client hclient
  by_cases hfd : fd' = fd
  · subst hfd
    exact hself client hclient
  · obtain ⟨hclients, hevents⟩ := hother fd' hfd
    rw [hclients] at hclient
    obtain ⟨hstream, hinterest, hwatched, hquit⟩ := h fd' client hclient
    rw [hconns fd' hfd]
    exact ⟨hstream, hinterest, hevents.trans hwatched, hquit⟩

theorem onAccept_streams {net : Network} {conns : Nat → Connection} (h : Streams net conns)
    (fd : Nat) : Streams (net.onAccept fd) (Function.update conns fd {}) := by
  refine h.frame (fun fd' hfd => ⟨AList.lookup_insert_ne hfd, AList.lookup_insert_ne hfd⟩)
    (fun fd' hfd => Function.update_of_ne hfd _ _) (fun client hclient => ?_)
  have hnew : client = {} := (Option.some.inj ((AList.lookup_insert _).symm.trans hclient)).symm
  rw [hnew, Function.update_self]
  exact ⟨⟨rfl, rfl⟩, ⟨nofun, nofun⟩, AList.lookup_insert _, nofun⟩

/-- **A callback of a client.** -/
theorem onClientEvent_streams {net : Network} {conns : Nat → Connection} (h : Streams net conns)
    (fd : Nat) (ev : ClientEvent) :
    Streams (net.onClientEvent fd ev).1
      (Function.update conns fd ((conns fd).after (net.onClientEvent fd ev).2)) := by
  refine h.frame (fun fd' hfd => onClientEvent_frame net hfd ev)
    (fun fd' hfd => Function.update_of_ne hfd _ _) (fun client' hclient' => ?_)
  have hclosed : ∀ n : Network, (n.closeClient fd).1.clients.lookup fd = none :=
    fun n => AList.lookup_erase fd n.clients
  rw [Function.update_self]
  cases hclient : net.clients.lookup fd with
  | none =>
      rw [onClientEvent_of_none hclient, hclient] at hclient'
      contradiction
  | some client =>
      by_cases hev : (ev.readable && ev.received.isEmpty) = true
      · rw [onClientEvent_of_hangup hclient hev, hclosed] at hclient'
        contradiction
      rw [onClientEvent_of_open hclient hev] at hclient' ⊢
      dsimp only at hclient' ⊢
      split at hclient'
      · rw [hclosed] at hclient'
        contradiction
      · next hfinished =>
        rw [AList.lookup_insert] at hclient'
        cases hclient'
        rw [if_neg hfinished]
        exact connected_flushed ev none (h fd client hclient)

/-- **One event keeps the invariant.** -/
theorem observe_streams {net : Network} {conns : Nat → Connection} (h : Streams net conns)
    (e : Event) : Streams (observe (net, conns) e).1 (observe (net, conns) e).2 := by
  cases e with
  | accept fd => exact onAccept_streams h fd
  | periodicExpireCheck check => exact h
  | client fd ev =>
      simp only [observe, record, step, dispatch]
      cases net.loop.events.lookup fd with
      | none => simpa using h
      | some mask => exact onClientEvent_streams h fd ev

theorem serve_streams (server : RedisServer) (events : List Event) :
    Streams (serve server events).1 (serve server events).2 := by
  induction events using List.reverseRecOn with
  | nil => exact fun _ _ h => by simp [serve] at h
  | append_singleton events e ih =>
      rw [serve, List.foldl_append]
      exact observe_streams ih e

/-! ## The end of a connection -/

/-- **Why a client is closed** by a callback: it has hung up, or it has sent `QUIT` and all
replies are out. -/
theorem onClientEvent_closes {net : Network} {fd : Nat} {conn : Connection} {client : Client}
    (hclient : net.clients.lookup fd = some client) (h : Connected net.loop fd conn client)
    {ev : ClientEvent} (hgone : (net.onClientEvent fd ev).1.clients.lookup fd = none) :
    (ev.readable = true ∧ ev.received = []) ∨
      ∃ gone, (net.onClientEvent fd ev).2.closed = some gone ∧ gone.closeAfterWrite = true ∧
        gone.writeBuf = [] ∧ ∃ loop,
          Connected loop fd (conn.after (net.onClientEvent fd ev).2) gone := by
  by_cases hev : (ev.readable && ev.received.isEmpty) = true
  · exact .inl ((Bool.and_eq_true_iff.mp hev).imp_right List.isEmpty_iff.mp)
  right
  rw [onClientEvent_of_open hclient hev] at hgone ⊢
  dsimp only at hgone ⊢
  split at hgone
  · next hfinished =>
    obtain ⟨hclose, hempty⟩ := Bool.and_eq_true_iff.mp hfinished
    rw [if_pos hfinished]
    exact ⟨_, rfl, hclose, List.isEmpty_iff.mp hempty, _, connected_flushed ev _ h⟩
  · rw [AList.lookup_insert] at hgone
    contradiction

/-- No event closes a client but one of its own. -/
theorem step_closes {net : Network} {e : Event} {fd : Nat} {client : Client}
    (hclient : net.clients.lookup fd = some client)
    (hgone : (net.step e).1.clients.lookup fd = none) :
    ∃ ev, e = .client fd ev ∧ net.step e = net.onClientEvent fd ev := by
  cases e with
  | accept fd' =>
      have hlookup : (net.onAccept fd').clients.lookup fd =
          if fd = fd' then some {} else net.clients.lookup fd :=
        UnorderedMap.lookup_insert_eq fd fd' ({} : Client) net.clients
      rw [step, hlookup, hclient] at hgone
      split at hgone <;> contradiction
  | periodicExpireCheck check =>
      rw [step, hclient] at hgone
      contradiction
  | client fd' ev =>
      rw [step, dispatch] at hgone ⊢
      cases hloop : net.loop.events.lookup fd' with
      | none =>
          rw [hloop, hclient] at hgone
          contradiction
      | some mask =>
          rw [hloop] at hgone
          by_cases hfd : fd = fd'
          · exact ⟨ev, by rw [hfd], by rw [hfd]⟩
          · rw [(onClientEvent_frame net hfd ev).1, hclient] at hgone
            contradiction

/-- **Every client's output is complete and in order**: in every run, for every
client that is connected, the commands served are those decoded from all bytes
received, what `send` took and what is left in `write_buf` are their replies,
and the interest in writing is on, with the client and in the event loop,
exactly if something is left.  An event that removes a client is one of its own:
`recv` returned nothing, or `CloseClient` found that it had sent `QUIT` and that
its `write_buf` was empty, and it has been sent everything. -/
theorem run_streams (server : RedisServer) (events : List Event) :
    (∀ fd client, (serve server events).1.clients.lookup fd = some client →
      ((serve server events).2 fd).commands =
          (RespCodec.feedChunks {} ((serve server events).2 fd).received).1 ∧
        ((serve server events).2 fd).accepted ++ client.writeBuf =
          ((serve server events).2 fd).replies ∧
        (client.writableMask = true ↔ client.writeBuf ≠ []) ∧
        (serve server events).1.loop.events.lookup fd = some ⟨true, client.writableMask⟩) ∧
      ∀ e fd client, (serve server events).1.clients.lookup fd = some client →
        ((serve server events).1.step e).1.clients.lookup fd = none →
        ∃ ev, e = .client fd ev ∧
          ((ev.readable = true ∧ ev.received = []) ∨
            ∃ gone, ((serve server events).1.step e).2.closed = some gone ∧
              gone.closeAfterWrite = true ∧ gone.writeBuf = [] ∧
              (∃ cmd ∈ ((serve server (events ++ [e])).2 fd).commands,
                normalize cmd.name = ascii "QUIT") ∧
              ((serve server (events ++ [e])).2 fd).commands =
                (RespCodec.feedChunks {} ((serve server (events ++ [e])).2 fd).received).1 ∧
              ((serve server (events ++ [e])).2 fd).accepted =
                ((serve server (events ++ [e])).2 fd).replies) := by
  have hinv := serve_streams server events
  refine ⟨fun fd client hclient => ?_, fun e fd client hclient hgone => ?_⟩
  · obtain ⟨hstream, hinterest, hwatched, -⟩ := hinv fd client hclient
    exact ⟨by rw [hstream.commands], hstream.output, hinterest, hwatched⟩
  · obtain ⟨ev, rfl, hstep⟩ := step_closes hclient hgone
    have hconn : (serve server (events ++ [.client fd ev])).2 fd =
        ((serve server events).2 fd).after ((serve server events).1.onClientEvent fd ev).2 := by
      rw [serve, List.foldl_append, ← hstep]
      exact Function.update_self _ _ _
    rw [hstep] at hgone ⊢
    refine ⟨ev, rfl, (onClientEvent_closes hclient (hinv fd client hclient) hgone).imp_right ?_⟩
    rintro ⟨gone, hclosed, hclose, hempty, loop, hafter⟩
    have houtput := hafter.stream.output
    rw [hempty, List.append_nil] at houtput
    rw [hconn]
    exact ⟨gone, hclosed, hclose, hempty, hafter.quit hclose, by rw [hafter.stream.commands],
      houtput⟩

end Network

end RedisLike
