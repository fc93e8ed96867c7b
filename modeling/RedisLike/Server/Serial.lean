import RedisLike.Server.Replies
import RedisLike.Server.Tick

/-!
# RedisLike.Server.Serial

Every run of the process is a run of its operations, one after another.

`Trace` records what the process does: its operations in order, and what passes
over its connections.  However the events of the clients interleave, the key
space and the files are those behind the operations (`perform`), and each client
that is connected has been sent, up to what waits in `write_buf`, the replies
that its own commands get there (`main_serial`): one value for each command
(`main_paired`).
-/

namespace RedisLike

open RedisServer Network

/-! ## Operations on the server -/

/-- An operation, on the key space and on the log. -/
def RedisServer.perform (server : RedisServer) : Op → RedisServer
  | .accept _ => server
  | .command _ step => server.process step
  | .expireCheck now rng => { server with db := RedisLike.expireCheck now rng server.db }

theorem RedisServer.perform_db (server : RedisServer) (op : Op) :
    (server.perform op).db = op.after server.db := by
  cases op with
  | accept fd => rfl
  | command fd step => exact process_db server step
  | expireCheck now rng => rfl

theorem RedisServer.foldl_perform_db (server : RedisServer) (ops : List Op) :
    (ops.foldl perform server).db = runOps server.db ops := by
  induction ops generalizing server with
  | nil => rfl
  | cons op ops ih => rw [List.foldl_cons, ih, perform_db, runOps_cons]

/-- One operation, for the list of commands of the client `fd` since it was
accepted, each with the key space it is processed on. -/
def serveOp (fd : Nat) (s : Dict × List (Dict × Step)) (op : Op) : Dict × List (Dict × Step) :=
  (op.after s.1,
    match op with
    | .accept fd' => if fd' = fd then [] else s.2
    | .command fd' step => if fd' = fd then s.2 ++ [(s.1, step)] else s.2
    | .expireCheck _ _ => s.2)

/-- The commands of the client `fd` since it was accepted, each with the key
space that the operations before it leave. -/
def servedSince (fd : Nat) (db : Dict) (ops : List Op) : List (Dict × Step) :=
  (ops.foldl (serveOp fd) (db, [])).2

theorem foldl_serveOp_fst (fd : Nat) (s : Dict × List (Dict × Step)) (ops : List Op) :
    (ops.foldl (serveOp fd) s).1 = runOps s.1 ops := by
  induction ops generalizing s with
  | nil => rfl
  | cons op ops ih => exact ih _

theorem servedSince_append (fd : Nat) (db : Dict) (ops ops' : List Op) :
    servedSince fd db (ops ++ ops') =
      (ops'.foldl (serveOp fd) (runOps db ops, servedSince fd db ops)).2 := by
  rw [servedSince, List.foldl_append, servedSince, ← foldl_serveOp_fst fd (db, []) ops]

/-! ## A batch -/

/-- The operations of a batch of commands. -/
def batchOps (fd : Nat) (served : List (Dict × Step)) : List Op :=
  served.map fun s => .command fd s.2

theorem processCommands_server (fd : Nat) (moments : Nat → Moment) (i : Nat)
    (cmds : List RespCommand) (client : Client) (server : RedisServer) :
    (processCommands moments i cmds (client, server)).1.2 =
      (batchOps fd (processCommands moments i cmds (client, server)).2).foldl perform server := by
  induction cmds generalizing i client server with
  | nil => rfl
  | cons cmd cmds ih =>
      rw [processCommands, batchOps, List.map_cons, List.foldl_cons]
      exact ih (i + 1) _ _

theorem readEvent_server (fd : Nat) (client : Client) (server : RedisServer) (ev : ClientEvent) :
    (readEvent client server ev).1.2 =
      (batchOps fd (readEvent client server ev).2).foldl perform server := by
  rw [readEvent]
  split
  · exact processCommands_server fd ev.moments 0 _ _ server
  · rfl

/-- A batch of a client is served to that client alone. -/
theorem foldl_serveOp_batch (fd fd' : Nat) (moments : Nat → Moment) (i : Nat)
    (cmds : List RespCommand) (client : Client) (server : RedisServer)
    (served : List (Dict × Step)) :
    ((batchOps fd' (processCommands moments i cmds (client, server)).2).foldl (serveOp fd)
        (server.db, served)).2 =
      if fd' = fd then served ++ (processCommands moments i cmds (client, server)).2
      else served := by
  induction cmds generalizing i client server served with
  | nil =>
      split
      · exact (List.append_nil _).symm
      · rfl
  | cons cmd cmds ih =>
      have hdb : (RedisServer.processCommand client server ⟨moments i, cmd⟩).2.db =
          (response server.db ⟨moments i, cmd⟩).2 := process_db server _
      have hrest := ih (i + 1) (RedisServer.processCommand client server ⟨moments i, cmd⟩).1
        (RedisServer.processCommand client server ⟨moments i, cmd⟩).2
      rw [processCommands, batchOps, List.map_cons, List.foldl_cons, serveOp, ← batchOps]
      dsimp only [Op.after]
      rw [← hdb, hrest]
      split
      · rw [List.append_assoc, List.singleton_append]
      · rfl

theorem foldl_serveOp_readEvent (fd fd' : Nat) (client : Client) (server : RedisServer)
    (ev : ClientEvent) (served : List (Dict × Step)) :
    ((batchOps fd' (readEvent client server ev).2).foldl (serveOp fd) (server.db, served)).2 =
      if fd' = fd then served ++ (readEvent client server ev).2 else served := by
  rw [readEvent]
  split
  · exact foldl_serveOp_batch fd fd' ev.moments 0 _ _ server served
  · rw [List.append_nil, ite_self]
    rfl

/-- What a callback serves is performed, one operation after another. -/
theorem onClientEvent_server (net : Network) (fd : Nat) (ev : ClientEvent) :
    (net.onClientEvent fd ev).1.server =
      (batchOps fd (net.onClientEvent fd ev).2.served).foldl perform net.server := by
  obtain ⟨hserver, hserved⟩ | ⟨client, hserver, hserved⟩ := onClientEvent_reads net fd ev
  · rw [hserver, hserved]
    rfl
  · rw [hserver, hserved]
    exact readEvent_server fd client net.server ev

/-- What a callback serves is served to its client alone. -/
theorem foldl_serveOp_onClientEvent (net : Network) (fd fd' : Nat) (ev : ClientEvent)
    (served : List (Dict × Step)) :
    ((batchOps fd' (net.onClientEvent fd' ev).2.served).foldl (serveOp fd)
        (net.server.db, served)).2 =
      if fd' = fd then served ++ (net.onClientEvent fd' ev).2.served else served := by
  obtain ⟨-, hserved⟩ | ⟨client, -, hserved⟩ := onClientEvent_reads net fd' ev
  · rw [hserved, List.append_nil, ite_self]
    rfl
  · rw [hserved]
    exact foldl_serveOp_readEvent fd fd' client net.server ev served

/-! ## The trace -/

/-- The event as the callback of a client gets it. -/
def FiredEvent.client (ev : FiredEvent) : ClientEvent :=
  ⟨ev.mask.readable, ev.received, ev.moments, ev.send⟩

/-- What a process has done: the operations, in order, and what has passed over
each connection since it was accepted. -/
structure Trace where
  ops : List Op := []
  conns : Nat → Connection := fun _ => {}

namespace Trace

/-- The trace behind `OnAccept`. -/
def onAccept (p : Process) (t : Trace) : List AcceptCall → Trace
  | [] => t
  | call :: calls =>
    match call.fd p.isOpen with
    | none => t
    | some fd =>
      onAccept { p with net := p.net.onAccept fd }
        ⟨t.ops ++ [.accept fd], Function.update t.conns fd {}⟩ calls

/-- The trace behind an event of a client, from the output of its callback. -/
def onClientEvent (net : Network) (t : Trace) (fd : Nat) (ev : ClientEvent) : Trace :=
  let out := (net.onClientEvent fd ev).2
  ⟨t.ops ++ batchOps fd out.served, Function.update t.conns fd ((t.conns fd).after out)⟩

/-- The trace behind a callback. -/
def callback (p : Process) (t : Trace) (ev : FiredEvent) : Trace :=
  if p.listenFd = some ev.fd then t.onAccept p ev.accepts
  else t.onClientEvent p.net ev.fd ev.client

/-- The trace behind `Dispatch`. -/
def dispatch (p : Process) (t : Trace) (ev : FiredEvent) : Trace :=
  match p.net.loop.events.lookup ev.fd with
  | none => t
  | some _ => t.callback p ev

/-- The trace behind the loop of `RunOnce`. -/
def runOnce (p : Process) (t : Trace) : List FiredEvent → Trace
  | [] => t
  | ev :: fired =>
    if ev.mask.readable || ev.mask.writable then runOnce (p.dispatch ev) (t.dispatch p ev) fired
    else runOnce p t fired

theorem runOnce_append (p : Process) (t : Trace) (fired fired' : List FiredEvent) :
    t.runOnce p (fired ++ fired') = (t.runOnce p fired).runOnce (p.runOnce fired) fired' := by
  induction fired generalizing p t with
  | nil => rfl
  | cons ev fired ih =>
      rw [List.cons_append, runOnce, runOnce, Process.runOnce]
      split
      · exact ih _ _
      · exact ih _ _

/-- The trace behind `PeriodicExpireCheck`. -/
def periodicExpireCheck (p : Process) (t : Trace) (now : TimePoint) (rng : Nat → Nat) : Trace :=
  if now - p.lastExpireCheck < 100000000 then t
  else { t with ops := t.ops ++ [.expireCheck now rng] }

/-- The trace behind a tick. -/
def tick (p : Process) (t : Trace) (input : TickInput) : Trace :=
  if p.running then
    let fired := input.wait.fired p.net.loop.events.lookup
    (t.runOnce p fired).periodicExpireCheck (p.runOnce fired) input.now input.rng
  else t

/-- The trace behind some ticks. -/
def run (p : Process) (t : Trace) : List TickInput → Trace
  | [] => t
  | input :: inputs => run (p.tick input) (t.tick p input) inputs

/-! ## The rule -/

section rule

variable {I : Process → Trace → Prop} {C : Nat → ClientEvent → Prop}
  (haccept : ∀ p t fd, I p t → I { p with net := p.net.onAccept fd }
    ⟨t.ops ++ [.accept fd], Function.update t.conns fd {}⟩)
  (hclient : ∀ p t fd ev, C fd ev → I p t →
    I { p with net := (p.net.onClientEvent fd ev).1 } (t.onClientEvent p.net fd ev))
  (hcheck : ∀ p t now rng, I p t → I
    { p with
      lastExpireCheck := now
      net := (p.net.step (.periodicExpireCheck (expireCheck now rng))).1 }
    { t with ops := t.ops ++ [.expireCheck now rng] })

include haccept

theorem onAccept_rule {p : Process} {t : Trace} (h : I p t) (calls : List AcceptCall) :
    I (p.onAccept calls) (t.onAccept p calls) := by
  induction calls generalizing p t with
  | nil => exact h
  | cons call calls ih =>
      rw [Trace.onAccept, Process.onAccept]
      cases call.fd p.isOpen with
      | none => exact h
      | some fd => exact ih (haccept p t fd h)

include hclient

theorem dispatch_rule {p : Process} {t : Trace} (h : I p t) {ev : FiredEvent}
    (hev : C ev.fd ev.client) : I (p.dispatch ev) (t.dispatch p ev) := by
  rw [Trace.dispatch, Process.dispatch]
  cases p.net.loop.events.lookup ev.fd with
  | none => exact h
  | some mask =>
      dsimp only
      rw [Trace.callback, Process.callback]
      split
      · exact onAccept_rule haccept h ev.accepts
      · exact hclient p t ev.fd ev.client hev h

theorem runOnce_rule {p : Process} {t : Trace} (h : I p t) {fired : List FiredEvent}
    (hfired : ∀ ev ∈ fired, C ev.fd ev.client) : I (p.runOnce fired) (t.runOnce p fired) := by
  induction fired generalizing p t with
  | nil => exact h
  | cons ev fired ih =>
      rw [List.forall_mem_cons] at hfired
      rw [Trace.runOnce, Process.runOnce]
      split
      · exact ih (dispatch_rule haccept hclient h hfired.1) hfired.2
      · exact ih h hfired.2

omit haccept hclient in
include hcheck in
theorem periodicExpireCheck_rule {p : Process} {t : Trace} (h : I p t) (now : TimePoint)
    (rng : Nat → Nat) : I (p.periodicExpireCheck now rng) (t.periodicExpireCheck p now rng) := by
  rw [Trace.periodicExpireCheck, Process.periodicExpireCheck]
  split
  · exact h
  · exact hcheck p t now rng h

include hcheck

/-- **The rule for runs**: what an `accept`, an event of a client and an expiry check
keep, the process and its trace keep. -/
theorem run_rule {p : Process} {t : Trace} (h : I p t) {inputs : List TickInput}
    (hinputs : ∀ input ∈ inputs, ∀ events, ∀ ev ∈ input.wait.fired events, C ev.fd ev.client) :
    I (p.run inputs) (t.run p inputs) := by
  induction inputs generalizing p t with
  | nil => exact h
  | cons input inputs ih =>
      rw [List.forall_mem_cons] at hinputs
      refine ih ?_ hinputs.2
      rw [Trace.tick, Process.tick]
      split
      · exact periodicExpireCheck_rule hcheck (runOnce_rule haccept hclient h (hinputs.1 _)) _ _
      · exact h

end rule

theorem run_append (p : Process) (t : Trace) (inputs inputs' : List TickInput) :
    t.run p (inputs ++ inputs') = (t.run p inputs).run (p.run inputs) inputs' := by
  induction inputs generalizing p t with
  | nil => rfl
  | cons input inputs ih => exact ih _ _

end Trace

/-! ## The invariant -/

/-- **The trace explains the process**, from what the server was at the start. -/
structure Explains (server : RedisServer) (p : Process) (t : Trace) : Prop where
  state : p.net.server = t.ops.foldl RedisServer.perform server
  served : ∀ fd, (t.conns fd).served = servedSince fd server.db t.ops
  streams : Streams p.net t.conns

namespace Explains

variable {server : RedisServer} {t : Trace} {p : Process}

theorem db_eq (h : Explains server p t) : p.net.server.db = runOps server.db t.ops := by
  rw [h.state, foldl_perform_db]

theorem accept (h : Explains server p t) (fd : Nat) :
    Explains server { p with net := p.net.onAccept fd }
      ⟨t.ops ++ [.accept fd], Function.update t.conns fd {}⟩ := by
  refine ⟨?_, fun fd' => ?_, onAccept_streams h.streams fd⟩
  · rw [List.foldl_append]
    exact h.state
  · rw [servedSince_append, ← h.served, List.foldl_cons, List.foldl_nil, serveOp]
    by_cases hfd : fd' = fd
    · simp [hfd, Function.update_self]
    · simp [Function.update_of_ne hfd, Ne.symm hfd]

theorem onClientEvent (h : Explains server p t) (fd : Nat) (ev : ClientEvent) :
    Explains server { p with net := (p.net.onClientEvent fd ev).1 }
      (t.onClientEvent p.net fd ev) := by
  refine ⟨?_, fun fd' => ?_, onClientEvent_streams h.streams fd ev⟩
  · rw [Trace.onClientEvent, List.foldl_append, ← h.state]
    exact onClientEvent_server p.net fd ev
  · rw [Trace.onClientEvent, servedSince_append, ← h.db_eq, foldl_serveOp_onClientEvent, ← h.served]
    dsimp only
    by_cases hfd : fd = fd'
    · rw [if_pos hfd, ← hfd, Function.update_self]
      rfl
    · rw [if_neg hfd, Function.update_of_ne (Ne.symm hfd)]

theorem expireCheck (h : Explains server p t) (now : TimePoint) (rng : Nat → Nat) :
    Explains server
      { p with
        lastExpireCheck := now
        net := (p.net.step (.periodicExpireCheck (RedisLike.expireCheck now rng))).1 }
      { t with ops := t.ops ++ [.expireCheck now rng] } := by
  refine ⟨?_, fun fd => ?_, h.streams⟩
  · rw [List.foldl_append, ← h.state]
    rfl
  · rw [servedSince_append, ← h.served]
    rfl

theorem run (h : Explains server p t) (inputs : List TickInput) :
    Explains server (p.run inputs) (t.run p inputs) :=
  @Trace.run_rule _ (fun _ _ => True) (fun _ _ fd h => h.accept fd)
    (fun _ _ fd ev _ h => h.onClientEvent fd ev)
    (fun _ _ now rng h => h.expireCheck now rng) p t h inputs fun _ _ _ _ _ => trivial

/-- What a client has sent is decoded to its commands, and what it is sent is the
replies to them. -/
theorem client_stream (h : Explains server p t) {fd : Nat} {client : Client}
    (hclient : p.net.clients.lookup fd = some client) :
    (servedSince fd server.db t.ops).map (fun s => s.2.cmd) =
        (RespCodec.feedChunks {} (t.conns fd).received).1 ∧
      (t.conns fd).accepted ++ client.writeBuf =
        ((servedSince fd server.db t.ops).map fun s => (response s.1 s.2).1).flatten := by
  obtain ⟨hcommands, houtput⟩ := (h.streams fd client hclient).stream
  rw [← h.served]
  exact ⟨by rw [hcommands]; rfl, houtput⟩

end Explains

/-! ## The process -/

namespace Process

/-- The process behind `Init`, in front of the loop of `main`. -/
def started (env : Startup) : Process := (new env.files env.now).init env.fd env.rng env.moments

/-- What the process of `main` does. -/
def trace (env : Startup) (inputs : List TickInput) : Trace := ({} : Trace).run (started env) inputs

theorem started_explains (env : Startup) :
    Explains (started env).net.server (started env) {} := by
  have hnone : ∀ fd, (started env).net.clients.lookup fd = none := by
    intro fd
    rw [started]
    cases env.fd <;> rfl
  refine ⟨rfl, fun fd => rfl, fun fd client hclient => ?_⟩
  rw [hnone] at hclient
  contradiction

theorem main_explains (env : Startup) (inputs : List TickInput) :
    Explains (started env).net.server (main env inputs) (trace env inputs) :=
  (started_explains env).run inputs

/-- **Every run is serial.**  However the events of the clients interleave, the
key space and the files are those that the operations leave, performed one after
another; and of every client that is connected, the commands are those decoded
from its bytes, and what it has been sent, with what waits in `write_buf`, is the
replies that these commands get among the operations. -/
theorem main_serial (env : Startup) (inputs : List TickInput) :
    (main env inputs).net.server =
        (trace env inputs).ops.foldl perform (started env).net.server ∧
      ∀ fd client, (main env inputs).net.clients.lookup fd = some client →
        (servedSince fd (started env).net.server.db (trace env inputs).ops).map
            (fun s => s.2.cmd) =
          (RespCodec.feedChunks {} ((trace env inputs).conns fd).received).1 ∧
        ((trace env inputs).conns fd).accepted ++ client.writeBuf =
          ((servedSince fd (started env).net.server.db (trace env inputs).ops).map
            fun s => (response s.1 s.2).1).flatten := by
  have h := main_explains env inputs
  exact ⟨h.state, fun fd client hclient => h.client_stream hclient⟩

/-- **Replies are paired with commands**, over every run and whatever the other clients
do: when the commands of a client are registered, or have no line end in their names,
what it has been sent, with what waits for it, is read as one value for each of its
commands, in order, with nothing left over. -/
theorem main_paired (env : Startup) (inputs : List TickInput) {fd : Nat} {client : Client}
    (hclient : (main env inputs).net.clients.lookup fd = some client)
    (hnames : ∀ cmd ∈ (RespCodec.feedChunks {} ((trace env inputs).conns fd).received).1,
      commandExists (normalize cmd.name) = true ∨ ¬ crlf <:+: cmd.name) :
    ∃ vs, RespValue.readItems (RespValue.read 2)
        (RespCodec.feedChunks {} ((trace env inputs).conns fd).received).1.length
        (((trace env inputs).conns fd).accepted ++ client.writeBuf) = some (vs, []) ∧
      List.Forall₂ (fun v s => RespValue.read 2 (response s.1 s.2).1 = some (v, [])) vs
        (servedSince fd (started env).net.server.db (trace env inputs).ops) := by
  obtain ⟨hcommands, houtput⟩ := (main_explains env inputs).client_stream hclient
  generalize servedSince fd (started env).net.server.db (trace env inputs).ops = served at *
  rw [← hcommands] at hnames ⊢
  obtain ⟨vs, hread, hvs⟩ := @readItems_flatten (RespValue.read 2)
    (served.map fun s => (response s.1 s.2).1) fun item hitem => by
      obtain ⟨s, hs, rfl⟩ := List.mem_map.mp hitem
      exact response_readsValue_of_name (hnames _ (List.mem_map_of_mem hs)) s.1
  rw [List.forall₂_map_right_iff] at hread
  have hall := hvs []
  rw [List.append_nil, List.length_map] at hall
  refine ⟨vs, ?_, hread.imp fun v s hv => ?_⟩
  · rw [houtput, List.length_map, hall]
  · simpa only [List.append_nil] using hv []

/-- A client that is accepted by the first tick and pings in the second. -/
theorem main_paired_ping :
    ∃ vs, RespValue.readItems (RespValue.read 2)
        (RespCodec.feedChunks {} ((trace listening
          (List.replicate 2 ⟨threeAndFive pingBytes, 0, fun _ => 0⟩)).conns 5).received).1.length
        (((trace listening
          (List.replicate 2 ⟨threeAndFive pingBytes, 0, fun _ => 0⟩)).conns 5).accepted ++
            RespCodec.pong) = some (vs, []) :=
  (@main_paired listening (List.replicate 2 ⟨threeAndFive pingBytes, 0, fun _ => 0⟩) 5
    { writeBuf := RespCodec.pong, writableMask := true } rfl (by decide)).imp fun _ h => h.1

end Process

end RedisLike
