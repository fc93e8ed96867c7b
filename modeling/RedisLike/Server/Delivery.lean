import RedisLike.Server.Serial

/-!
# RedisLike.Server.Delivery

Replies that wait are delivered.

What waits in `write_buf` goes out as soon as the socket takes it: a client that
keeps reading, and does not hang up, has all of it after as many ticks as there
are bytes (`main_delivers`), whatever it sends meanwhile, and whatever the other
clients do.
-/

namespace RedisLike

open Network

/-- The client does not hang up: what `recv` returns is not empty. -/
def StaysOpen (fd : Nat) (fd' : Nat) (ev : ClientEvent) : Prop :=
  fd' = fd → ev.readable = true → ev.received ≠ []

/-- The socket takes bytes: whenever the event loop asks whether `fd` is writable,
it is, and `send` takes a byte at least. -/
def TakesBytes (fd : Nat) (input : TickInput) : Prop :=
  ∀ events mask, events fd = some mask → mask.writable = true →
    ∃ ev ∈ input.wait.fired events, ev.fd = fd ∧ ev.epollOut = true ∧
      ∀ buf, buf ≠ [] → 0 < ev.send.sent buf

/-- At most `n` bytes of `w` are not yet sent to `fd`, and those wait. -/
def Owes (fd : Nat) (w : Bytes) (n : Nat) (p : Process) (t : Trace) : Prop :=
  w <+: (t.conns fd).accepted ∨ ∃ client, p.net.clients.lookup fd = some client ∧
    w <+: (t.conns fd).accepted ++ client.writeBuf ∧ w.length ≤ (t.conns fd).accepted.length + n

/-- At most `n` bytes are owed, unless the descriptor has become that of another
connection. -/
def Pending (fd : Nat) (ops : List Op) (w : Bytes) (n : Nat) (p : Process) (t : Trace) : Prop :=
  ∃ new, t.ops = ops ++ new ∧ (.accept fd ∈ new ∨ Owes fd w n p t)

/-! ## A flush -/

/-- A `send` that takes a byte. -/
theorem length_flushed_pos {net : Network} {fd : Nat} {client : Client} {ev : ClientEvent}
    (hbuf : client.writeBuf ≠ []) (hsend : ∀ buf, buf ≠ [] → 0 < ev.send.sent buf) :
    0 < (flushed net fd client ev).2.length := by
  have hread : (readEvent client net.server ev).1.1.writeBuf ≠ [] := by
    rw [readEvent_writeBuf]
    exact fun hnil => hbuf (List.append_eq_nil_iff.mp hnil).1
  have htaken := hsend _ hread
  have hlen := List.length_pos_iff.mpr hread
  have hflush : (flushed net fd client ev).2 =
      ev.send.taken (readEvent client net.server ev).1.1.writeBuf := by
    rw [flushed, flushWriteBuf, if_neg (by rwa [List.isEmpty_iff])]
    dsimp only
    split
    · rfl
    · split
      · rfl
      · split <;> rfl
  rw [hflush, SendCall.taken, List.length_take]
  omega

section owes

variable {fd : Nat} {w : Bytes} {n : Nat} {p : Process} {t : Trace}

/-- An event of the client itself, which is not the end of it. -/
theorem Owes.self (h : Owes fd w n p t) {client : Client}
    (hclient : p.net.clients.lookup fd = some client) {ev : ClientEvent}
    (hev : StaysOpen fd fd ev) :
    Owes fd w n { p with net := (p.net.onClientEvent fd ev).1 } (t.onClientEvent p.net fd ev) ∧
      (client.writeBuf ≠ [] → (∀ buf, buf ≠ [] → 0 < ev.send.sent buf) →
        Owes fd w (n - 1) { p with net := (p.net.onClientEvent fd ev).1 }
          (t.onClientEvent p.net fd ev)) := by
  have hopen : ¬ (ev.readable && ev.received.isEmpty) = true := by
    rw [Bool.and_eq_true, List.isEmpty_iff]
    exact fun hhup => hev rfl hhup.1 hhup.2
  have hcallback := onClientEvent_of_open hclient hopen
  have haccepted : ((t.onClientEvent p.net fd ev).conns fd).accepted =
      (t.conns fd).accepted ++ (flushed p.net fd client ev).2 := by
    simp only [Trace.onClientEvent, Function.update_self, Connection.after, hcallback]
    split <;> rfl
  have houtput : (flushed p.net fd client ev).2 ++ (flushed p.net fd client ev).1.1.writeBuf =
      (readEvent client p.net.server ev).1.1.writeBuf := flushWriteBuf_output _ _ _ _
  have hclients : (p.net.onClientEvent fd ev).1.clients.lookup fd =
      if finished (flushed p.net fd client ev).1.1 then none
      else some (flushed p.net fd client ev).1.1 := by
    rw [hcallback]
    dsimp only
    split
    · exact AList.lookup_erase fd _
    · exact AList.lookup_insert _
  have hpending : ∀ k, (w <+: (t.conns fd).accepted ∨ w.length ≤ (t.conns fd).accepted.length +
      (flushed p.net fd client ev).2.length + k) →
      w <+: (t.conns fd).accepted ++ client.writeBuf →
      Owes fd w k { p with net := (p.net.onClientEvent fd ev).1 }
        (t.onClientEvent p.net fd ev) := by
    intro k hlen hw
    have hgrown : w <+: (t.conns fd).accepted ++ (flushed p.net fd client ev).2 ++
        (flushed p.net fd client ev).1.1.writeBuf := by
      rw [List.append_assoc, houtput, readEvent_writeBuf, ← List.append_assoc]
      exact hw.trans (List.prefix_append _ _)
    rw [Owes, haccepted]
    obtain hdone | hlen := hlen
    · exact .inl (hdone.trans (List.prefix_append _ _))
    by_cases hfinished : finished (flushed p.net fd client ev).1.1 = true
    · -- `QUIT` closes the client when nothing is left
      have hnil := List.isEmpty_iff.mp (Bool.and_eq_true_iff.mp hfinished).2
      rw [hnil, List.append_nil] at hgrown
      exact .inl hgrown
    · refine .inr ⟨_, hclients.trans (if_neg hfinished), hgrown, ?_⟩
      rw [List.length_append]
      exact hlen
  obtain hdone | ⟨client', hclient', hw, hlen⟩ := h
  · have hkeep := fun k => hpending k (.inl hdone) (hdone.trans (List.prefix_append _ _))
    exact ⟨hkeep n, fun _ _ => hkeep (n - 1)⟩
  · obtain rfl : client = client' := Option.some.inj (hclient.symm.trans hclient')
    refine ⟨hpending n (.inr (by omega)) hw, fun hne hsend => hpending (n - 1) (.inr ?_) hw⟩
    have hsent := @length_flushed_pos p.net fd client ev hne hsend
    omega

/-- Nothing is owed once nothing waits. -/
theorem Owes.of_nil (h : Owes fd w n p t) {client : Client}
    (hclient : p.net.clients.lookup fd = some client) (hnil : client.writeBuf = []) :
    w <+: (t.conns fd).accepted := by
  obtain hdone | ⟨client', hclient', hw, -⟩ := h
  · exact hdone
  · obtain rfl : client = client' := Option.some.inj (hclient.symm.trans hclient')
    rwa [hnil, List.append_nil] at hw

/-- What does not touch the connection. -/
theorem Owes.frame (h : Owes fd w n p t) {p' : Process} {t' : Trace}
    (hclient : p'.net.clients.lookup fd = p.net.clients.lookup fd)
    (hconn : t'.conns fd = t.conns fd) : Owes fd w n p' t' := by
  rwa [Owes, hclient, hconn]

end owes

/-! ## Ticks -/

section pending

variable {fd : Nat} {ops : List Op} {w : Bytes} {n : Nat} {p : Process} {t : Trace}

theorem Pending.accept (h : Pending fd ops w n p t) (fd' : Nat) :
    Pending fd ops w n { p with net := p.net.onAccept fd' }
      ⟨t.ops ++ [.accept fd'], Function.update t.conns fd' {}⟩ := by
  obtain ⟨new, hops, h⟩ := h
  refine ⟨new ++ [.accept fd'], by rw [hops, List.append_assoc], ?_⟩
  by_cases hfd : fd = fd'
  · exact .inl (by simp [hfd])
  · exact h.imp (List.mem_append_left _) fun howes =>
      howes.frame (AList.lookup_insert_ne hfd) (Function.update_of_ne hfd _ _)

/-- A step that brings no connection. -/
theorem Pending.step {m : Nat} {p' : Process} {t' : Trace} (h : Pending fd ops w n p t)
    {new : List Op} (hops : t'.ops = t.ops ++ new) (howes : Owes fd w n p t → Owes fd w m p' t') :
    Pending fd ops w m p' t' := by
  obtain ⟨old, hold, h⟩ := h
  exact ⟨old ++ new, by rw [hops, hold, List.append_assoc], h.imp (List.mem_append_left _) howes⟩

theorem Pending.onClientEvent (h : Pending fd ops w n p t) {fd' : Nat} {ev : ClientEvent}
    (hev : StaysOpen fd fd' ev) :
    Pending fd ops w n { p with net := (p.net.onClientEvent fd' ev).1 }
      (t.onClientEvent p.net fd' ev) := by
  refine h.step rfl fun howes => ?_
  by_cases hfd : fd = fd'
  · subst hfd
    cases hclient : p.net.clients.lookup fd with
    | some client => exact (howes.self hclient hev).1
    | none =>
        have hidle := onClientEvent_of_none hclient ev
        refine howes.frame (by rw [hidle]) ?_
        simp only [Trace.onClientEvent, hidle, Connection.after_empty, Function.update_self]
  · exact howes.frame (onClientEvent_frame p.net hfd ev).1 (Function.update_of_ne hfd _ _)

theorem Pending.runOnce (h : Pending fd ops w n p t) {fired : List FiredEvent}
    (hfired : ∀ ev ∈ fired, StaysOpen fd ev.fd ev.client) :
    Pending fd ops w n (p.runOnce fired) (t.runOnce p fired) :=
  Trace.runOnce_rule (fun _ _ fd' h => h.accept fd')
    (fun _ _ _ _ hev h => h.onClientEvent hev) h hfired

/-- The event of a socket that takes bytes, among those of a tick. -/
theorem Pending.gains (h : Pending fd ops w n p t) (hreg : Process.Registered p) {client : Client}
    (hclient : p.net.clients.lookup fd = some client) (hbuf : client.writeBuf ≠ [])
    {pre post : List FiredEvent} {ev : FiredEvent} (hnodup : fd ∉ pre.map FiredEvent.fd)
    (hfd : ev.fd = fd) (hout : ev.epollOut = true)
    (hsend : ∀ buf, buf ≠ [] → 0 < ev.send.sent buf)
    (hstays : ∀ ev' ∈ pre ++ ev :: post, StaysOpen fd ev'.fd ev'.client) :
    Pending fd ops w (n - 1) (p.runOnce (pre ++ ev :: post)) (t.runOnce p (pre ++ ev :: post)) := by
  rw [List.forall_mem_append, List.forall_mem_cons] at hstays
  have hmask : (ev.mask.readable || ev.mask.writable) = true := by
    rw [FiredEvent.mask, hout]
    exact Bool.or_true _
  have hopen : p.isOpen fd = true := by simp [Process.isOpen, hclient]
  obtain ⟨hc, he, hl⟩ := Process.runOnce_frame hopen hnodup
  -- the events in front leave the client as it is
  have hclient' := hc.trans hclient
  have hwatched := he.trans (hreg.client fd client hclient).watched
  have hlisten : (p.runOnce pre).listenFd ≠ some fd := fun hlisten => by
    rw [hl] at hlisten
    rw [(hreg.listener fd hlisten).2] at hclient
    contradiction
  have hprocess : (p.runOnce pre).dispatch ev = { p.runOnce pre with
      net := ((p.runOnce pre).net.onClientEvent fd ev.client).1 } := by
    rw [Process.dispatch, hfd, hwatched]
    dsimp only
    rw [Process.callback, hfd, if_neg hlisten]
    rfl
  have htrace : (t.runOnce p pre).dispatch (p.runOnce pre) ev =
      (t.runOnce p pre).onClientEvent (p.runOnce pre).net fd ev.client := by
    rw [Trace.dispatch, hfd, hwatched]
    dsimp only
    rw [Trace.callback, hfd, if_neg hlisten]
  rw [Process.runOnce_append, Trace.runOnce_append, Process.runOnce, Trace.runOnce, if_pos hmask,
    if_pos hmask, hprocess, htrace]
  refine Pending.runOnce ((h.runOnce hstays.1).step rfl fun howes => ?_) hstays.2.2
  exact (howes.self hclient' (hfd ▸ hstays.2.1)).2 hbuf hsend

/-- **A tick** of a socket that takes bytes. -/
theorem Pending.tick (h : Pending fd ops w n p t) (hreg : Process.Registered p)
    (hrunning : p.running = true) {input : TickInput} (htakes : TakesBytes fd input)
    (hstays : ∀ events, ∀ ev ∈ input.wait.fired events, StaysOpen fd ev.fd ev.client) :
    Pending fd ops w (n - 1) (p.tick input) (t.tick p input) := by
  rw [Process.tick, Trace.tick, if_pos hrunning, if_pos hrunning]
  refine Trace.periodicExpireCheck_rule (I := Pending fd ops w (n - 1))
    (fun _ _ _ _ h => h.step rfl fun howes => howes.frame rfl rfl) ?_ _ _
  have hdone : (∀ k, Pending fd ops w k p t) → Pending fd ops w (n - 1)
      (p.runOnce (input.wait.fired p.net.loop.events.lookup))
      (t.runOnce p (input.wait.fired p.net.loop.events.lookup)) :=
    fun hall => (hall (n - 1)).runOnce (hstays _)
  obtain ⟨new, hops, hnew | hw | ⟨client, hclient, howes⟩⟩ := h
  · exact hdone fun k => ⟨new, hops, .inl hnew⟩
  · exact hdone fun k => ⟨new, hops, .inr (.inl hw)⟩
  by_cases hbuf : client.writeBuf = []
  · exact hdone fun k => ⟨new, hops, .inr (.inl (Owes.of_nil (.inr ⟨client, hclient, howes⟩)
      hclient hbuf))⟩
  · obtain ⟨hwatched, hinterest, -⟩ := hreg.client fd client hclient
    obtain ⟨ev, hev, hfd, hout, hsend⟩ := htakes p.net.loop.events.lookup _ hwatched
      (hinterest.mpr hbuf)
    obtain ⟨pre, post, hfired⟩ := List.append_of_mem hev
    have hnodup := input.wait.nodup p.net.loop.events.lookup
    have hstays' := hstays p.net.loop.events.lookup
    rw [hfired] at hnodup hstays' ⊢
    rw [List.map_append, List.map_cons, List.nodup_append] at hnodup
    exact Pending.gains ⟨new, hops, .inr (.inr ⟨client, hclient, howes⟩)⟩ hreg hclient hbuf
      (fun hpre => hnodup.2.2 fd hpre ev.fd List.mem_cons_self hfd.symm) hfd hout hsend hstays'

end pending

/-! ## Runs -/

/-- **Some ticks** of a socket that takes bytes. -/
theorem Pending.run {fd : Nat} {ops : List Op} {w : Bytes} {inputs : List TickInput}
    (htakes : ∀ input ∈ inputs, TakesBytes fd input)
    (hstays : ∀ input ∈ inputs, ∀ events, ∀ ev ∈ input.wait.fired events,
      StaysOpen fd ev.fd ev.client) {n : Nat} (hn : n ≤ inputs.length) {p : Process} {t : Trace}
    (h : Pending fd ops w n p t) (hreg : Process.Registered p) (hrunning : p.running = true) :
    Pending fd ops w 0 (p.run inputs) (t.run p inputs) := by
  induction inputs generalizing p t n with
  | nil => rwa [Nat.le_zero.mp hn] at h
  | cons input inputs ih =>
      rw [List.forall_mem_cons] at htakes hstays
      rw [List.length_cons] at hn
      exact ih htakes.2 hstays.2 (by omega) (h.tick hreg hrunning htakes.1 hstays.1)
        (Process.tick_registered hreg input) ((Process.running_run p [input]).trans hrunning)

theorem Pending.sent {fd : Nat} {ops : List Op} {w : Bytes} {p : Process} {t : Trace}
    (h : Pending fd ops w 0 p t) :
    ∃ new, t.ops = ops ++ new ∧ (.accept fd ∈ new ∨ w <+: (t.conns fd).accepted) := by
  obtain ⟨new, hops, hnew | hw | ⟨client, -, hw, hlen⟩⟩ := h
  · exact ⟨new, hops, .inl hnew⟩
  · exact ⟨new, hops, .inr hw⟩
  · exact ⟨new, hops, .inr (List.prefix_of_prefix_length_le hw (List.prefix_append _ _) hlen)⟩

namespace Process

/-- A process with a client is one that runs. -/
theorem running_of_client {env : Startup} {inputs : List TickInput} {fd : Nat} {client : Client}
    (hclient : (main env inputs).net.clients.lookup fd = some client) :
    (main env inputs).running = true := by
  rw [main, running_run]
  cases hfd : env.fd with
  | some fd' => rfl
  | none =>
      have hidle : ∀ inputs : List TickInput,
          ((new env.files env.now).init none env.rng env.moments).run inputs =
            (new env.files env.now).init none env.rng env.moments := by
        intro inputs
        induction inputs with
        | nil => rfl
        | cons input inputs ih => exact ih
      rw [main, hfd, hidle] at hclient
      cases hclient

/-- **The replies are delivered.**  While its socket takes bytes and the client does not
hang up, what waits for it is sent after as many ticks as there are bytes, unless
its descriptor has become that of another connection. -/
theorem main_delivers (env : Startup) (before after : List TickInput) {fd : Nat} {client : Client}
    (hclient : (main env before).net.clients.lookup fd = some client)
    (htakes : ∀ input ∈ after, TakesBytes fd input)
    (hstays : ∀ input ∈ after, ∀ events, ∀ ev ∈ input.wait.fired events,
      StaysOpen fd ev.fd ev.client)
    (hlen : client.writeBuf.length ≤ after.length) :
    ∃ new, (trace env (before ++ after)).ops = (trace env before).ops ++ new ∧
      (.accept fd ∈ new ∨ ((trace env before).conns fd).accepted ++ client.writeBuf <+:
        ((trace env (before ++ after)).conns fd).accepted) := by
  have hstart : Pending fd (trace env before).ops
      (((trace env before).conns fd).accepted ++ client.writeBuf) client.writeBuf.length
      (main env before) (trace env before) :=
    ⟨[], (List.append_nil _).symm, .inr (.inr ⟨client, hclient, List.prefix_refl _, by
      rw [List.length_append]⟩)⟩
  have htrace : trace env (before ++ after) = (trace env before).run (main env before) after :=
    Trace.run_append (started env) {} before after
  rw [htrace]
  exact (hstart.run htakes hstays hlen (main_registered env before)
    (running_of_client hclient)).sent

/-- The socket 5 is writable, and a `send` to it takes one byte. -/
def fiveWritable : FiredEvent :=
  { readyEvent [] 5 with
      epollIn := false, epollOut := true
      send := ⟨fun buf => min 1 buf.length, fun _ => min_le_right _ _⟩ }

/-- An `epoll_wait` that reports 5 when it is asked whether it is writable. -/
def fiveTakes : EpollWait where
  fired events := if (events 5).any EventMask.writable then [fiveWritable] else []
  length_le events := by split <;> simp [kMaxEvents]
  nodup events := by split <;> simp
  registered events ev hev := by
    split at hev
    · next h5 =>
      obtain rfl := List.mem_singleton.mp hev
      obtain ⟨mask, hmask, hwrite⟩ := (Option.any_eq_true _ _).mp h5
      exact ⟨mask, hmask, fun _ => hwrite⟩
    · contradiction

theorem fiveTakes_takesBytes : TakesBytes 5 ⟨fiveTakes, 0, fun _ => 0⟩ := by
  intro events mask hmask hwrite
  have hany : (events 5).any EventMask.writable = true := by rwa [hmask]
  have hfired : fiveTakes.fired events = [fiveWritable] := if_pos hany
  refine ⟨fiveWritable, hfired ▸ List.mem_singleton_self _, rfl, rfl, ?_⟩
  intro buf hbuf
  have hlen := List.length_pos_iff.mpr hbuf
  dsimp only [fiveWritable]
  omega

theorem fiveTakes_staysOpen (fd : Nat) :
    ∀ events, ∀ ev ∈ fiveTakes.fired events, StaysOpen fd ev.fd ev.client := by
  intro events ev hev _ hread
  rw [fiveTakes] at hev
  dsimp only at hev
  split at hev
  · obtain rfl := List.mem_singleton.mp hev
    contradiction
  · contradiction

/-- A `PONG` that waits is sent byte by byte. -/
theorem main_delivers_pong :
    ∃ new, (trace listening (List.replicate 2 ⟨threeAndFive pingBytes, 0, fun _ => 0⟩ ++
        List.replicate 10 ⟨fiveTakes, 0, fun _ => 0⟩)).ops =
        (trace listening (List.replicate 2 ⟨threeAndFive pingBytes, 0, fun _ => 0⟩)).ops ++ new ∧
      (.accept 5 ∈ new ∨ RespCodec.pong <+:
        ((trace listening (List.replicate 2 ⟨threeAndFive pingBytes, 0, fun _ => 0⟩ ++
          List.replicate 10 ⟨fiveTakes, 0, fun _ => 0⟩)).conns 5).accepted) :=
  @main_delivers listening (List.replicate 2 ⟨threeAndFive pingBytes, 0, fun _ => 0⟩)
    (List.replicate 10 ⟨fiveTakes, 0, fun _ => 0⟩) 5
    { writeBuf := RespCodec.pong, writableMask := true } rfl
    (fun input hinput => List.eq_of_mem_replicate hinput ▸ fiveTakes_takesBytes)
    (fun input hinput => List.eq_of_mem_replicate hinput ▸ fiveTakes_staysOpen 5) (by decide)

end Process

end RedisLike
