import RedisLike.Server.History
import RedisLike.Server.Streams

/-!
# RedisLike.Server.Tick

The process of `main.cpp`: `Init`, `Tick` and `Stop` of `server.cpp`, with
`RunOnce` of `event_loop.cpp` and the loop of `OnAccept`.

The calls of the operating system come with a tick.  What they may return is a
field of their types: `epoll_wait` reports a registered descriptor at most once,
and writing only where it was asked for; `accept` returns no descriptor that is
open.  Under these, every descriptor that is registered is the listening socket
or a client (`Registered`), and a batch of events is served as it was reported:
when the turn of an event comes, its connection is still there and has not been
touched (`runOnce_undisturbed`).
-/

namespace RedisLike

/-! ## The calls of the operating system -/

/-- A call of `accept`: the descriptor it returns, which is not open, or
`kInvalidSocket`. -/
structure AcceptCall where
  fd : (Nat → Bool) → Option Nat
  closed : ∀ isOpen fd', fd isOpen = some fd' → isOpen fd' = false

/-- An `epoll_event`, with what the operating system answers during its
callback: the calls of `accept`, or the bytes of `recv`, the result of `send`,
and the clock and random words of each command. -/
structure FiredEvent where
  fd : Nat
  epollIn : Bool
  epollHup : Bool
  epollErr : Bool
  epollOut : Bool
  accepts : List AcceptCall
  received : Bytes
  moments : Nat → Moment
  send : SendCall

/-- The mask that `RunOnce` makes of an event. -/
def FiredEvent.mask (ev : FiredEvent) : EventMask :=
  ⟨ev.epollIn || ev.epollHup || ev.epollErr, ev.epollOut⟩

/-- `kMaxEvents`. -/
def kMaxEvents : Nat := 128

/-- A call of `epoll_wait`: the events it reports, from what is registered. -/
structure EpollWait where
  fired : (Nat → Option EventMask) → List FiredEvent
  length_le : ∀ events, (fired events).length ≤ kMaxEvents
  nodup : ∀ events, ((fired events).map FiredEvent.fd).Nodup
  registered : ∀ events, ∀ ev ∈ fired events, ∃ mask, events ev.fd = some mask ∧
    (ev.epollOut = true → mask.writable = true)

/-- What a `Tick` reads from outside: the events, and the clock and the random
words of `PeriodicExpireCheck`. -/
structure TickInput where
  wait : EpollWait
  now : TimePoint
  rng : Nat → Nat

/-! ## The process -/

/-- `RedisServer`, all of it. -/
structure Process where
  net : Network
  listenFd : Option Nat := none
  lastExpireCheck : TimePoint
  running : Bool := false

namespace Process

/-- The descriptors that the process has open for its sockets. -/
def isOpen (p : Process) (fd : Nat) : Bool :=
  p.listenFd = some fd || (p.net.clients.lookup fd).isSome

/-- The constructor, at the time `now`. -/
def new (files : Files) (now : TimePoint) : Process :=
  { net := ⟨.new files, {}, ∅⟩, lastExpireCheck := now }

/-- `Init`; `fd` is the result of `CreateListenSocket`, and `rng` and `moments`
are for `LoadPersistedData`. -/
def init (p : Process) (fd : Option Nat) (rng : Nat → Nat → Nat → Nat)
    (moments : Nat → Moment) : Process :=
  match fd with
  | none => { p with listenFd := none }
  | some fd =>
    { p with
      listenFd := some fd
      running := true
      net := { p.net with
        loop := p.net.loop.addEvent fd ⟨true, false⟩
        server := p.net.server.loadPersistedData rng moments } }

/-- `OnAccept`. -/
def onAccept (p : Process) : List AcceptCall → Process
  | [] => p
  | call :: calls =>
    match call.fd p.isOpen with
    | none => p
    | some fd => onAccept { p with net := p.net.onAccept fd } calls

/-- The callback that is registered for the descriptor. -/
def callback (p : Process) (ev : FiredEvent) : Process :=
  if p.listenFd = some ev.fd then p.onAccept ev.accepts
  else
    { p with
      net :=
        (p.net.onClientEvent ev.fd ⟨ev.mask.readable, ev.received, ev.moments, ev.send⟩).1 }

/-- `EventLoop::Dispatch`. -/
def dispatch (p : Process) (ev : FiredEvent) : Process :=
  match p.net.loop.events.lookup ev.fd with
  | none => p
  | some _ => p.callback ev

/-- The loop of `EventLoop::RunOnce` over the events that fired. -/
def runOnce (p : Process) : List FiredEvent → Process
  | [] => p
  | ev :: fired =>
    runOnce (if ev.mask.readable || ev.mask.writable then p.dispatch ev else p) fired

/-- `PeriodicExpireCheck`. -/
def periodicExpireCheck (p : Process) (now : TimePoint) (rng : Nat → Nat) : Process :=
  if now - p.lastExpireCheck < 100000000 then p
  else
    { p with
      lastExpireCheck := now
      net := (p.net.step (.periodicExpireCheck (expireCheck now rng))).1 }

/-- `Tick`. -/
def tick (p : Process) (input : TickInput) : Process :=
  if p.running then
    (p.runOnce (input.wait.fired p.net.loop.events.lookup)).periodicExpireCheck input.now input.rng
  else p

/-- `Stop`, and the two files as it leaves them. -/
def stop (p : Process) : Files × Process :=
  let files := p.net.server.stop
  let loop := match p.listenFd with
    | none => p.net.loop
    | some fd => p.net.loop.removeEvent fd
  (files,
    { p with
      running := false
      listenFd := none
      net := ⟨{ p.net.server with dump := files.dump },
        p.net.clients.keys.foldl EventLoop.removeEvent loop, ∅⟩ })

end Process

/-! ## One callback -/

namespace Network

/-- A client between two events: the loop watches it for writing exactly while
something is left to send, and after a `QUIT` something is left. -/
structure Settled (loop : EventLoop) (fd : Nat) (client : Client) : Prop where
  watched : Watched loop fd client
  interest : client.writableMask = true ↔ client.writeBuf ≠ []
  quit : client.closeAfterWrite = true → client.writeBuf ≠ []

theorem settled_new (loop : EventLoop) (fd : Nat) :
    Settled (loop.addEvent fd ⟨true, false⟩) fd {} :=
  ⟨AList.lookup_insert _, ⟨nofun, nofun⟩, nofun⟩

/-- What a callback can do to its own descriptor. -/
theorem onClientEvent_self {net : Network} {fd : Nat} {client : Client}
    (hclient : net.clients.lookup fd = some client) (h : Settled net.loop fd client)
    (ev : ClientEvent) :
    (net.onClientEvent fd ev).1.clients.lookup fd = none ∧
        (net.onClientEvent fd ev).1.loop.events.lookup fd = none ∨
      ∃ client', (net.onClientEvent fd ev).1.clients.lookup fd = some client' ∧
        Settled (net.onClientEvent fd ev).1.loop fd client' := by
  have hclosed : ∀ n : Network, (n.closeClient fd).1.clients.lookup fd = none ∧
      (n.closeClient fd).1.loop.events.lookup fd = none :=
    fun n => ⟨AList.lookup_erase fd n.clients, AList.lookup_erase fd n.loop.events⟩
  by_cases hev : (ev.readable && ev.received.isEmpty) = true
  · rw [onClientEvent_of_hangup hclient hev]
    exact .inl (hclosed net)
  have hflush := flushed_spec ev h.interest h.watched
  rw [onClientEvent_of_open hclient hev]
  dsimp only
  split
  · exact .inl (hclosed _)
  · next hfinished =>
    refine .inr ⟨_, AList.lookup_insert _, hflush.watched, hflush.interest, fun hquit hnil => ?_⟩
    rw [finished, hquit, hnil] at hfinished
    exact hfinished rfl

end Network

namespace Process

open Network

/-! ## What is registered -/

/-- **What is registered** with the event loop: the listening socket, for
reading, and the clients. -/
structure Registered (p : Process) : Prop where
  listener : ∀ fd, p.listenFd = some fd →
    p.net.loop.events.lookup fd = some ⟨true, false⟩ ∧ p.net.clients.lookup fd = none
  client : ∀ fd client, p.net.clients.lookup fd = some client → Settled p.net.loop fd client
  isOpen : ∀ fd, (p.net.loop.events.lookup fd).isSome = true → p.isOpen fd = true

theorem isOpen_eq_false {p : Process} {fd : Nat} :
    p.isOpen fd = false ↔ p.listenFd ≠ some fd ∧ p.net.clients.lookup fd = none := by
  simp [isOpen]

/-- What happens to one descriptor leaves the others registered as they were. -/
theorem Registered.frame {p p' : Process} {fd : Nat} (h : Registered p)
    (hlisten : p'.listenFd = p.listenFd) (hfd : p.listenFd ≠ some fd)
    (hother : ∀ fd', fd' ≠ fd → p'.net.clients.lookup fd' = p.net.clients.lookup fd' ∧
      p'.net.loop.events.lookup fd' = p.net.loop.events.lookup fd')
    (hself : p'.net.clients.lookup fd = none ∧ p'.net.loop.events.lookup fd = none ∨
      ∃ client, p'.net.clients.lookup fd = some client ∧ Settled p'.net.loop fd client) :
    Registered p' := by
  constructor
  · intro fd' hfd'
    rw [hlisten] at hfd'
    have hne : fd' ≠ fd := by
      rintro rfl
      exact hfd hfd'
    rw [(hother fd' hne).1, (hother fd' hne).2]
    exact h.listener fd' hfd'
  · intro fd' client hclient
    by_cases hne : fd' = fd
    · subst hne
      obtain ⟨hnone, -⟩ | ⟨client', hsome, hsettled⟩ := hself
      · rw [hnone] at hclient
        contradiction
      · rw [hsome] at hclient
        cases hclient
        exact hsettled
    · rw [(hother fd' hne).1] at hclient
      obtain ⟨hwatched, hinterest, hquit⟩ := h.client fd' client hclient
      exact ⟨(hother fd' hne).2.trans hwatched, hinterest, hquit⟩
  · intro fd' hevent
    by_cases hne : fd' = fd
    · subst hne
      obtain ⟨-, hnone⟩ | ⟨client, hsome, -⟩ := hself
      · rw [hnone] at hevent
        contradiction
      · simp [Process.isOpen, hsome]
    · rw [(hother fd' hne).2] at hevent
      have hopen := h.isOpen fd' hevent
      rwa [Process.isOpen, hlisten, (hother fd' hne).1]

theorem onAccept_registered {p : Process} (h : Registered p) (calls : List AcceptCall) :
    Registered (p.onAccept calls) := by
  induction calls generalizing p with
  | nil => exact h
  | cons call calls ih =>
      rw [onAccept]
      cases hcall : call.fd p.isOpen with
      | none => exact h
      | some fd =>
          obtain ⟨hlisten, -⟩ := isOpen_eq_false.mp (call.closed _ _ hcall)
          refine ih (h.frame rfl hlisten (fun fd' hne => ?_) (.inr ⟨{}, ?_, settled_new _ _⟩))
          · exact ⟨AList.lookup_insert_ne hne, AList.lookup_insert_ne hne⟩
          · exact AList.lookup_insert _

/-- `OnAccept` leaves the descriptors that are open alone. -/
theorem onAccept_frame {p : Process} {fd : Nat} (hopen : p.isOpen fd = true)
    (calls : List AcceptCall) :
    (p.onAccept calls).net.clients.lookup fd = p.net.clients.lookup fd ∧
      (p.onAccept calls).net.loop.events.lookup fd = p.net.loop.events.lookup fd ∧
      (p.onAccept calls).listenFd = p.listenFd := by
  induction calls generalizing p with
  | nil => exact ⟨rfl, rfl, rfl⟩
  | cons call calls ih =>
      rw [onAccept]
      cases hcall : call.fd p.isOpen with
      | none => exact ⟨rfl, rfl, rfl⟩
      | some fd' =>
          have hne : fd ≠ fd' := by
            rintro rfl
            rw [call.closed _ _ hcall] at hopen
            contradiction
          have hclients : (p.net.onAccept fd').clients.lookup fd = p.net.clients.lookup fd :=
            AList.lookup_insert_ne hne
          have hevents : (p.net.onAccept fd').loop.events.lookup fd =
              p.net.loop.events.lookup fd := AList.lookup_insert_ne hne
          obtain ⟨hc, he, hl⟩ := @ih { p with net := p.net.onAccept fd' }
            (by rwa [Process.isOpen, hclients])
          exact ⟨hc.trans hclients, he.trans hevents, hl⟩

theorem dispatch_registered {p : Process} (h : Registered p) (ev : FiredEvent) :
    Registered (p.dispatch ev) := by
  rw [dispatch]
  cases hevent : p.net.loop.events.lookup ev.fd with
  | none => exact h
  | some mask =>
      dsimp only
      rw [callback]
      split
      · exact onAccept_registered h ev.accepts
      · next hlisten =>
        have hopen := h.isOpen ev.fd (by rw [hevent]; rfl)
        obtain ⟨client, hclient⟩ : ∃ client, p.net.clients.lookup ev.fd = some client := by
          rw [Process.isOpen, Bool.or_eq_true, decide_eq_true_eq] at hopen
          exact Option.isSome_iff_exists.mp (hopen.resolve_left hlisten)
        exact h.frame rfl hlisten (fun fd' hne => onClientEvent_frame p.net hne _)
          (onClientEvent_self hclient (h.client _ _ hclient) _)

/-- An event leaves the other descriptors alone that are open. -/
theorem dispatch_frame {p : Process} {fd : Nat} (hopen : p.isOpen fd = true) {ev : FiredEvent}
    (hne : fd ≠ ev.fd) :
    (p.dispatch ev).net.clients.lookup fd = p.net.clients.lookup fd ∧
      (p.dispatch ev).net.loop.events.lookup fd = p.net.loop.events.lookup fd ∧
      (p.dispatch ev).listenFd = p.listenFd := by
  rw [dispatch]
  cases p.net.loop.events.lookup ev.fd with
  | none => exact ⟨rfl, rfl, rfl⟩
  | some mask =>
      dsimp only
      rw [callback]
      split
      · exact onAccept_frame hopen ev.accepts
      · obtain ⟨hc, he⟩ := onClientEvent_frame p.net hne
          ⟨ev.mask.readable, ev.received, ev.moments, ev.send⟩
        exact ⟨hc, he, rfl⟩

theorem runOnce_registered {p : Process} (h : Registered p) (fired : List FiredEvent) :
    Registered (p.runOnce fired) := by
  induction fired generalizing p with
  | nil => exact h
  | cons ev fired ih =>
      rw [runOnce]
      split
      · exact ih (dispatch_registered h ev)
      · exact ih h

theorem runOnce_append (p : Process) (fired fired' : List FiredEvent) :
    p.runOnce (fired ++ fired') = (p.runOnce fired).runOnce fired' := by
  induction fired generalizing p with
  | nil => rfl
  | cons ev fired ih => rw [List.cons_append, runOnce, ih, runOnce]

/-- Events of other descriptors leave one alone that is open. -/
theorem runOnce_frame {p : Process} {fd : Nat} (hopen : p.isOpen fd = true)
    {fired : List FiredEvent} (hfd : fd ∉ fired.map FiredEvent.fd) :
    (p.runOnce fired).net.clients.lookup fd = p.net.clients.lookup fd ∧
      (p.runOnce fired).net.loop.events.lookup fd = p.net.loop.events.lookup fd ∧
      (p.runOnce fired).listenFd = p.listenFd := by
  induction fired generalizing p with
  | nil => exact ⟨rfl, rfl, rfl⟩
  | cons ev fired ih =>
      rw [List.map_cons, List.mem_cons, not_or] at hfd
      rw [runOnce]
      split
      · obtain ⟨hc, he, hl⟩ := dispatch_frame hopen hfd.1
        obtain ⟨hc', he', hl'⟩ := @ih (p.dispatch ev) (by rwa [Process.isOpen, hc, hl]) hfd.2
        exact ⟨hc'.trans hc, he'.trans he, hl'.trans hl⟩
      · exact ih hopen hfd.2

theorem periodicExpireCheck_registered {p : Process} (h : Registered p) (now : TimePoint)
    (rng : Nat → Nat) : Registered (p.periodicExpireCheck now rng) := by
  rw [periodicExpireCheck]
  split
  · exact h
  · exact ⟨h.listener, h.client, h.isOpen⟩

/-- **A tick keeps the invariant.** -/
theorem tick_registered {p : Process} (h : Registered p) (input : TickInput) :
    Registered (p.tick input) := by
  rw [tick]
  split
  · exact periodicExpireCheck_registered (runOnce_registered h _) _ _
  · exact h

/-! ## Runs -/

/-- The `while` loop of `main`. -/
def run (p : Process) (inputs : List TickInput) : Process := inputs.foldl tick p

/-- What `main` reads from outside before its loop: the files, the clock, the
result of `CreateListenSocket`, and what `LoadPersistedData` reads. -/
structure Startup where
  files : Files
  now : TimePoint
  fd : Option Nat
  rng : Nat → Nat → Nat → Nat
  moments : Nat → Moment

/-- `main`, up to some tick. -/
def main (env : Startup) (inputs : List TickInput) : Process :=
  ((new env.files env.now).init env.fd env.rng env.moments).run inputs

theorem run_registered {p : Process} (h : Registered p) (inputs : List TickInput) :
    Registered (p.run inputs) := by
  induction inputs generalizing p with
  | nil => exact h
  | cons input inputs ih => exact ih (tick_registered h input)

theorem running_runOnce (p : Process) (fired : List FiredEvent) :
    (p.runOnce fired).running = p.running := by
  have haccept : ∀ (calls : List AcceptCall) (p : Process),
      (p.onAccept calls).running = p.running := by
    intro calls
    induction calls with
    | nil => exact fun _ => rfl
    | cons call calls ih =>
        intro p
        rw [onAccept]
        cases call.fd p.isOpen with
        | none => rfl
        | some fd => exact ih _
  induction fired generalizing p with
  | nil => rfl
  | cons ev fired ih =>
      rw [runOnce, ih]
      split
      · rw [dispatch]
        cases p.net.loop.events.lookup ev.fd with
        | none => rfl
        | some mask =>
            dsimp only
            rw [callback]
            split
            · exact haccept _ p
            · rfl
      · rfl

/-- Nothing but `Stop` ends the loop of `main`. -/
theorem running_run (p : Process) (inputs : List TickInput) :
    (p.run inputs).running = p.running := by
  induction inputs generalizing p with
  | nil => rfl
  | cons input inputs ih =>
      refine (ih _).trans ?_
      rw [tick]
      split
      · rw [periodicExpireCheck]
        split <;> exact running_runOnce p _
      · rfl

theorem main_registered (env : Startup) (inputs : List TickInput) :
    Registered (main env inputs) := by
  refine run_registered ?_ inputs
  cases env.fd with
  | none => exact ⟨nofun, nofun, nofun⟩
  | some fd =>
      refine ⟨fun fd' hfd' => ?_, nofun, fun fd' hevent => ?_⟩
      · cases hfd'
        exact ⟨AList.lookup_insert _, rfl⟩
      · by_cases hne : fd' = fd
        · simp [Process.isOpen, init, hne]
        · have hnone : ((new env.files env.now).init (some fd) env.rng
              env.moments).net.loop.events.lookup fd' = none := AList.lookup_insert_ne hne
          rw [hnone] at hevent
          contradiction

theorem lookup_foldl_removeEvent (fds : List Nat) (loop : EventLoop) (fd : Nat) :
    (fds.foldl EventLoop.removeEvent loop).events.lookup fd =
      if fd ∈ fds then none else loop.events.lookup fd := by
  induction fds generalizing loop with
  | nil => simp
  | cons fd' fds ih =>
      have herase : (loop.removeEvent fd').events.lookup fd =
          if fd = fd' then none else loop.events.lookup fd :=
        UnorderedMap.lookup_erase_eq fd fd' loop.events
      rw [List.foldl_cons, ih, herase]
      by_cases hmem : fd ∈ fds <;> by_cases hfd : fd = fd' <;> simp [hmem, hfd]

/-- `Stop` leaves nothing registered. -/
theorem Registered.lookup_stop {p : Process} (h : Registered p) (fd : Nat) :
    p.stop.2.net.loop.events.lookup fd = none := by
  have hopen := h.isOpen fd
  rw [Process.isOpen, Bool.or_eq_true, decide_eq_true_eq] at hopen
  rw [stop]
  dsimp only
  rw [lookup_foldl_removeEvent]
  split
  · rfl
  · next hmem =>
    have hclient : ¬ (p.net.clients.lookup fd).isSome = true := fun hsome =>
      hmem (AList.lookup_isSome.mp hsome)
    cases hlisten : p.listenFd with
    | none =>
        rw [hlisten] at hopen
        by_contra hsome
        obtain hfd | hfd := hopen (Option.isSome_iff_ne_none.mpr hsome)
        · contradiction
        · exact hclient hfd
    | some fd' =>
        have herase : (p.net.loop.removeEvent fd').events.lookup fd =
            if fd = fd' then none else p.net.loop.events.lookup fd :=
          UnorderedMap.lookup_erase_eq fd fd' p.net.loop.events
        dsimp only
        rw [herase]
        split
        · rfl
        · next hne =>
          rw [hlisten] at hopen
          by_contra hsome
          obtain hfd | hfd := hopen (Option.isSome_iff_ne_none.mpr hsome)
          · exact hne (Option.some.inj hfd).symm
          · exact hclient hfd

/-- **The event loop watches what is open**, in every state that the loop of
`main` reaches: the listening socket and the clients, no client under the
descriptor of the listening socket, and a client for writing exactly while
something is left to send.  A client that has sent `QUIT` is open only while
something is left.  `Stop` leaves nothing registered, and nothing open. -/
theorem main_watches (env : Startup) (inputs : List TickInput) :
    (∀ fd, ((main env inputs).net.loop.events.lookup fd).isSome = (main env inputs).isOpen fd) ∧
      (∀ fd client, (main env inputs).net.clients.lookup fd = some client →
        (main env inputs).listenFd ≠ some fd ∧
        (main env inputs).net.loop.events.lookup fd = some ⟨true, client.writableMask⟩ ∧
        (client.writableMask = true ↔ client.writeBuf ≠ []) ∧
        (client.closeAfterWrite = true → client.writeBuf ≠ [])) ∧
      ∀ fd, (main env inputs).stop.2.net.loop.events.lookup fd = none ∧
        (main env inputs).stop.2.isOpen fd = false := by
  have h := main_registered env inputs
  refine ⟨fun fd => Bool.eq_iff_iff.mpr ⟨h.isOpen fd, fun hopen => ?_⟩, fun fd client hclient => ?_,
    fun fd => ⟨h.lookup_stop fd, rfl⟩⟩
  · rw [Process.isOpen, Bool.or_eq_true, decide_eq_true_eq] at hopen
    obtain hlisten | hclient := hopen
    · rw [(h.listener fd hlisten).1]
      rfl
    · obtain ⟨client, hclient⟩ := Option.isSome_iff_exists.mp hclient
      rw [(h.client fd client hclient).watched]
      rfl
  · obtain ⟨hwatched, hinterest, hquit⟩ := h.client fd client hclient
    refine ⟨fun hlisten => ?_, hwatched, hinterest, hquit⟩
    rw [(h.listener fd hlisten).2] at hclient
    contradiction

/-- **Events are served as they were reported**: when the turn of an event comes,
its descriptor is still registered, and what is registered under it, and the
client behind it, are as they were when `epoll_wait` returned. -/
theorem runOnce_undisturbed (env : Startup) (inputs : List TickInput) (wait : EpollWait)
    {pre post : List FiredEvent} {ev : FiredEvent}
    (hfired : wait.fired (main env inputs).net.loop.events.lookup = pre ++ ev :: post) :
    ((main env inputs).runOnce pre).dispatch ev = ((main env inputs).runOnce pre).callback ev ∧
      ((main env inputs).runOnce pre).net.clients.lookup ev.fd =
        (main env inputs).net.clients.lookup ev.fd ∧
      ((main env inputs).runOnce pre).net.loop.events.lookup ev.fd =
        (main env inputs).net.loop.events.lookup ev.fd ∧
      ((main env inputs).runOnce pre).listenFd = (main env inputs).listenFd := by
  have hmem : ev ∈ wait.fired (main env inputs).net.loop.events.lookup := by
    rw [hfired]
    simp
  obtain ⟨mask, hmask, -⟩ := wait.registered _ ev hmem
  have hopen := (main_registered env inputs).isOpen ev.fd (by rw [hmask]; rfl)
  have hnodup := wait.nodup (main env inputs).net.loop.events.lookup
  rw [hfired, List.map_append, List.map_cons, List.nodup_append] at hnodup
  have hfd : ev.fd ∉ pre.map FiredEvent.fd := fun hpre =>
    hnodup.2.2 ev.fd hpre ev.fd List.mem_cons_self rfl
  obtain ⟨hc, he, hl⟩ := runOnce_frame hopen hfd
  refine ⟨?_, hc, he, hl⟩
  rw [dispatch, he, hmask]

/-- A call of `accept` that returns 5, if it can. -/
def acceptFive : AcceptCall where
  fd isOpen := if isOpen 5 then none else some 5
  closed isOpen fd' h := by
    split at h
    · contradiction
    · next hclosed =>
      cases h
      simpa using hclosed

/-- A socket that is readable, and what its `recv` returns. -/
def readyEvent (received : Bytes) (fd : Nat) : FiredEvent where
  fd := fd
  epollIn := true
  epollHup := false
  epollErr := false
  epollOut := false
  accepts := [acceptFive]
  received := received
  moments := fun _ => ⟨0, fun _ _ => 0⟩
  send := ⟨fun _ => -1, fun buf => by omega⟩

/-- An `epoll_wait` for which 3 and 5 are readable. -/
def threeAndFive (received : Bytes) : EpollWait where
  fired events :=
    if (events 3).isSome then
      if (events 5).isSome then [readyEvent received 3, readyEvent received 5]
      else [readyEvent received 3]
    else []
  length_le events := by
    split
    · split <;> simp [kMaxEvents]
    · simp
  nodup events := by
    split
    · split <;> simp [readyEvent]
    · simp
  registered events ev hev := by
    have hsome : (events ev.fd).isSome = true ∧ ev.epollOut = false := by
      split at hev
      · next h3 =>
        split at hev
        · next h5 =>
          simp only [List.mem_cons, List.not_mem_nil, or_false] at hev
          obtain rfl | rfl := hev
          · exact ⟨h3, rfl⟩
          · exact ⟨h5, rfl⟩
        · obtain rfl := List.mem_singleton.mp hev
          exact ⟨h3, rfl⟩
      · contradiction
    obtain ⟨mask, hmask⟩ := Option.isSome_iff_exists.mp hsome.1
    exact ⟨mask, hmask, fun hout => by rw [hsome.2] at hout; contradiction⟩

/-- A server that listens on 3. -/
def listening : Startup := ⟨{}, 0, some 3, fun _ _ _ => 0, fun _ => ⟨0, fun _ _ => 0⟩⟩

/-- A `PING`, on the wire. -/
def pingBytes : Bytes := ascii "*1\r\n$4\r\nPING\r\n"

/-- The client that the first tick accepts is served by the second as it is. -/
theorem runOnce_undisturbed_five :
    ((main listening [⟨threeAndFive pingBytes, 0, fun _ => 0⟩]).runOnce
        [readyEvent pingBytes 3]).net.clients.lookup 5 =
      (main listening [⟨threeAndFive pingBytes, 0, fun _ => 0⟩]).net.clients.lookup 5 :=
  (@runOnce_undisturbed listening [⟨threeAndFive pingBytes, 0, fun _ => 0⟩]
    (threeAndFive pingBytes) [readyEvent pingBytes 3] [] (readyEvent pingBytes 5) rfl).2.1

end Process

end RedisLike
