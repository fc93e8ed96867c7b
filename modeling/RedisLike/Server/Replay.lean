import RedisLike.Server.Log

/-!
# RedisLike.Server.Replay

The log against the key space.

A replay runs the logged commands with another clock and other random words.
An entry comes out the same unless its history holds a deadline, which the log
keeps relative to the time of the command, or a NaN score, which makes the order
of a sorted set depend on its random heights.  A command that overwrites the
entry ends such a history.
-/

namespace RedisLike

namespace RedisServer

/-! ## The rule -/

/-- The replay of a log of decoded commands runs them. -/
theorem replayLog_encodeAll (moments : Nat → Moment) {cmds : List RespCommand} (db : Dict)
    (hargs : ∀ cmd ∈ cmds, cmd.args.length ≤ 255)
    (hname : ∀ cmd ∈ cmds, normalize cmd.name ∈ AofLogger.writes)
    (hlen : (encodeAll cmds).length < 2 ^ 62) :
    replayLog moments (encodeAll cmds) db = (cmds.foldl (replayCommand moments) (0, db)).2 := by
  have hfilter : cmds.filter (fun cmd => !cmd.name.isEmpty) = cmds := by
    refine List.filter_eq_self.mpr fun cmd hcmd => ?_
    have hne : cmd.name ≠ [] := fun hnil => by
      have := hname cmd hcmd
      rw [hnil] at this
      exact absurd this (by decide)
    simpa using hne
  rw [replayLog, AofLogger.replay, feed_new_eq_run hlen, run_encodeAll hargs (by omega)]
  dsimp only
  rw [hfilter]

theorem mem_loggedCommands {db : Dict} {steps : List Step} {cmd : RespCommand}
    (h : cmd ∈ loggedCommands db steps) :
    (∃ step ∈ steps, step.cmd = cmd) ∧ normalize cmd.name ∈ AofLogger.writes := by
  induction steps generalizing db with
  | nil => exact absurd h List.not_mem_nil
  | cons step steps ih =>
      have htail : ∀ {db}, cmd ∈ loggedCommands db steps →
          (∃ s ∈ step :: steps, s.cmd = cmd) ∧ normalize cmd.name ∈ AofLogger.writes := by
        intro db hmem
        obtain ⟨⟨s, hs, hcmd⟩, hname⟩ := ih hmem
        exact ⟨⟨s, List.mem_cons_of_mem step hs, hcmd⟩, hname⟩
      rw [loggedCommands] at h
      by_cases hlogs : logs db step = true
      · rw [if_pos hlogs] at h
        rcases List.mem_cons.mp h with rfl | h
        · exact ⟨⟨step, by simp, rfl⟩, normalize_mem_of_logs hlogs⟩
        · exact htail h
      · rw [if_neg hlogs] at h
        exact htail h

/-- The log of a run from an empty one, replayed. -/
theorem replayLog_run (moments : Nat → Moment) {steps : List Step} (db : Dict)
    (hfeed : ∀ step ∈ steps, step.cmd.Decoded)
    (hlen : ((new {}).run steps).log.length < 2 ^ 62) :
    replayLog moments ((new {}).run steps).log db =
      ((loggedCommands ∅ steps).foldl (replayCommand moments) (0, db)).2 := by
  have hlog : ((new {}).run steps).log = encodeAll (loggedCommands ∅ steps) := run_log _ _
  rw [hlog] at hlen ⊢
  refine replayLog_encodeAll moments db (fun cmd hcmd => ?_)
    (fun cmd hcmd => (mem_loggedCommands hcmd).2) hlen
  obtain ⟨step, hstep, rfl⟩ := (mem_loggedCommands hcmd).1
  exact (hfeed step hstep).length_args

theorem replayCommand_of_mem_writes (moments : Nat → Moment) (i : Nat) (db : Dict)
    {cmd : RespCommand} (h : normalize cmd.name ∈ AofLogger.writes) :
    replayCommand moments (i, db) cmd =
      (i + 1, (execute ⟨db, cmd, (moments i).now, (moments i).rng⟩).2) := by
  obtain ⟨hexists, hskip⟩ := writes_registered h
  rw [replayCommand]
  simp only [if_neg hskip, hexists, if_true]

/-- **The rule for replays**: a relation between an entry of the run and the
same entry of the replay, which every logged command keeps, holds at the end if
it holds at the start. -/
theorem replay_simulation {I : Option RedisObject → Option RedisObject → Prop}
    {P : Dict → Step → Prop} {key : Bytes} (moments : Nat → Moment)
    (hperm : ∀ e e', I e e' → Permanent e ∧ Permanent e')
    (hhalf : ∀ db step, P db step → key = step.cmd.args.getD 0 [] →
      ¬ HalfApplied (step.context db))
    (hstep : ∀ db step e' (m : Moment), P db step → logs db step → I (db.get key) e' →
      I (entryEffect step.cmd step.now step.rng key (db.get key))
        (entryEffect step.cmd m.now m.rng key e'))
    {steps : List Step} {db db' : Dict} {i : Nat} (hP : Along P db steps)
    (h : I (db.get key) (db'.get key)) :
    I ((runDb db steps).get key)
      (((loggedCommands db steps).foldl (replayCommand moments) (i, db')).2.get key) := by
  induction steps generalizing db db' i with
  | nil => exact h
  | cons step steps ih =>
      have hget := get_response (hperm _ _ h).1 (hhalf db step hP.1)
      rw [runDb, List.foldl_cons, ← runDb, loggedCommands]
      by_cases hlogs : logs db step = true
      · rw [if_pos hlogs] at hget ⊢
        rw [List.foldl_cons, replayCommand_of_mem_writes moments i db' (normalize_mem_of_logs hlogs)]
        refine ih hP.2 ?_
        rw [hget, get_execute (hperm _ _ h).2]
        exact hstep db step _ (moments i) hP.1 hlogs h
      · rw [if_neg hlogs] at hget ⊢
        refine ih hP.2 ?_
        rwa [hget]

/-! ## Entries that come out the same -/

/-- The command gives its key a deadline. -/
def SetsDeadline (db : Dict) (step : Step) : Prop :=
  step.cmd.SetsDeadline (db.live step.now (step.cmd.args.getD 0 []))

/-- The command stores a NaN as a score. -/
def StoresNaN (db : Dict) (step : Step) : Prop :=
  step.cmd.StoresNaN (db.live step.now (step.cmd.args.getD 0 []))

/-- What the command does to `key` comes out the same in a replay. -/
structure Clean (key : Bytes) (db : Dict) (step : Step) : Prop where
  name : normalize step.cmd.name ≠ ascii "SPOP"
  deadline : key = step.cmd.args.getD 0 [] → ¬ SetsDeadline db step
  nan : key = step.cmd.args.getD 0 [] → ¬ StoresNaN db step
  score : key = step.cmd.args.getD 0 [] → ¬ FloatError db step

theorem Clean.not_halfApplied {key : Bytes} {db : Dict} {step : Step} (h : Clean key db step)
    (hkey : key = step.cmd.args.getD 0 []) : ¬ HalfApplied (step.context db) :=
  fun hx => h.score hkey (floatError_of_halfApplied hx)

theorem Clean.repeatable {key : Bytes} {db : Dict} {step : Step} (h : Clean key db step)
    (hperm : Permanent (db.get key)) (hkey : key = step.cmd.args.getD 0 []) :
    step.cmd.Repeatable (db.get key) := by
  have hlive : db.live step.now (step.cmd.args.getD 0 []) = db.get key := by
    rw [← hkey]
    exact hperm.live step.now
  have hd := h.deadline hkey
  have hn := h.nan hkey
  rw [SetsDeadline, hlive] at hd
  rw [StoresNaN, hlive] at hn
  exact ⟨h.name, hd, hn, fun hs => h.score hkey (floatError_of_stopsAtScore (by rwa [hlive]))⟩

/-- Steps that meet `P` keep the entry of a run and of its replay equivalent. -/
def Rebuilds (moments : Nat → Moment) (key : Bytes) (P : Dict → Step → Prop) : Prop :=
  ∀ (steps : List Step) (db db' : Dict) (i : Nat), Along P db steps →
    EntrySim (db.get key) (db'.get key) → EntrySim ((runDb db steps).get key)
      (((loggedCommands db steps).foldl (replayCommand moments) (i, db')).2.get key)

/-- **Equivalent entries stay equivalent** through a clean run and its replay. -/
theorem rebuilds_clean (moments : Nat → Moment) (key : Bytes) :
    Rebuilds moments key (Clean key) := by
  intro steps db db' i hP h
  exact replay_simulation moments (fun _ _ h => h.permanent) (fun _ _ hP => hP.not_halfApplied)
    (fun _ _ _ _ hP _ h => entryEffect_sim h (hP.repeatable h.permanent.1)) hP h

/-- From the start, or from behind a command that overwrites the entry of the
key, every step of the run meets `P`. -/
def SinceOverwrite (key : Bytes) (P : Dict → Step → Prop) (steps : List Step) : Prop :=
  Along P ∅ steps ∨ ∃ pre step post, steps = pre ++ step :: post ∧
    step.cmd.Overwrites key ∧ Along P (runDb ∅ (pre ++ [step])) post

theorem loggedCommands_append (db : Dict) (steps steps' : List Step) :
    loggedCommands db (steps ++ steps') =
      loggedCommands db steps ++ loggedCommands (runDb db steps) steps' := by
  induction steps generalizing db with
  | nil => rfl
  | cons step steps ih =>
      rw [List.cons_append, loggedCommands, loggedCommands, ih]
      split <;> rfl

theorem overwrites_mem_writes {cmd : RespCommand} {key : Bytes} (h : cmd.Overwrites key) :
    normalize cmd.name ∈ AofLogger.writes := by
  rcases h with ⟨hname, -⟩ | ⟨-, ⟨hname, -⟩ | ⟨hname | hname, -⟩⟩ <;> rw [hname] <;> decide

/-- An overwriting command is logged. -/
theorem logs_of_overwrites {db : Dict} {step : Step} {key : Bytes}
    (h : step.cmd.Overwrites key) : logs db step = true := by
  obtain ⟨hreply, -⟩ := @execute_of_overwrites (step.context db) key h
  rw [logs, Bool.and_eq_true, Bool.not_eq_true']
  refine ⟨(isWriteCommand_normalize _).mpr (overwrites_mem_writes h), ?_⟩
  by_contra hprefix
  rw [Bool.not_eq_false] at hprefix
  have herror := isError_of_isPrefixOf hprefix
  rw [response_eq, hreply] at herror
  contradiction

theorem overwritten_sim (cmd : RespCommand) : EntrySim (overwritten cmd) (overwritten cmd) := by
  unfold overwritten
  split
  · exact Option.Rel.some (.refl trivial rfl)
  · exact EntrySim.none

/-- After a command that overwrites the entry, run and replay agree on it. -/
theorem replay_overwrites (moments : Nat → Moment) {key : Bytes} {step : Step} {db db' : Dict}
    {i : Nat} (h : step.cmd.Overwrites key) :
    EntrySim ((runDb db [step]).get key)
      (((loggedCommands db [step]).foldl (replayCommand moments) (i, db')).2.get key) := by
  have hrun := @execute_of_overwrites (step.context db) key h
  have hreplay := @execute_of_overwrites ⟨db', step.cmd, (moments i).now, (moments i).rng⟩ key h
  rw [loggedCommands, if_pos (logs_of_overwrites h), List.foldl_cons,
    replayCommand_of_mem_writes moments i db' (overwrites_mem_writes h)]
  have hdb : runDb db [step] = (execute (step.context db)).2 := by
    rw [← response_eq]
    rfl
  rw [hdb, hrun.2]
  change EntrySim _ (Dict.get (execute _).2 key)
  rw [hreplay.2]
  exact overwritten_sim step.cmd

theorem runDb_append (db : Dict) (steps steps' : List Step) :
    runDb db (steps ++ steps') = runDb (runDb db steps) steps' := List.foldl_append

section rebuilds

variable {moments : Nat → Moment} {key : Bytes} {P : Dict → Step → Prop}

/-- **An entry whose history since it was overwritten meets `P`** is rebuilt from
the log, whatever the replay starts with. -/
theorem Rebuilds.of_overwrites (hP : Rebuilds moments key P) {pre post : List Step} {step : Step}
    {db db' : Dict} {i : Nat} (h : step.cmd.Overwrites key)
    (hpost : Along P (runDb db (pre ++ [step])) post) :
    EntrySim ((runDb db (pre ++ step :: post)).get key)
      (((loggedCommands db (pre ++ step :: post)).foldl (replayCommand moments) (i, db')).2.get
        key) := by
  have hsplit : pre ++ step :: post = pre ++ ([step] ++ post) := rfl
  rw [runDb_append] at hpost
  rw [hsplit, runDb_append, runDb_append, loggedCommands_append, loggedCommands_append,
    List.foldl_append, List.foldl_append]
  exact hP _ _ _ _ hpost (replay_overwrites moments h)

/-- An entry that the replay starts without is rebuilt from such a history. -/
theorem Rebuilds.of_sinceOverwrite (hP : Rebuilds moments key P) {steps : List Step}
    {db' : Dict} {i : Nat} (h : SinceOverwrite key P steps) (hdb' : db'.get key = none) :
    EntrySim ((runDb ∅ steps).get key)
      (((loggedCommands ∅ steps).foldl (replayCommand moments) (i, db')).2.get key) := by
  rcases h with h | ⟨pre, step, post, rfl, hover, hpost⟩
  · refine hP _ _ _ _ h ?_
    rw [Dict.get_empty, hdb']
    exact EntrySim.none
  · exact hP.of_overwrites hover hpost

end rebuilds

/-! ## Whole key spaces -/

theorem SinceOverwrite.imp {key : Bytes} {P Q R : Dict → Step → Prop} {steps : List Step}
    (h : SinceOverwrite key P steps) (hQ : Along Q ∅ steps)
    (hPQ : ∀ db step, P db step → Q db step → R db step) : SinceOverwrite key R steps := by
  rcases h with h | ⟨pre, step, post, rfl, hover, hpost⟩
  · exact .inl ((h.and hQ).imp fun db step hstep => hPQ db step hstep.1 hstep.2)
  · refine .inr ⟨pre, step, post, rfl, hover, ?_⟩
    have hsplit : pre ++ step :: post = (pre ++ [step]) ++ post := by simp
    rw [hsplit, along_append] at hQ
    exact (hpost.and hQ.2).imp fun db step hstep => hPQ db step hstep.1 hstep.2

/-- The command stores a NaN as a score of `key`. -/
def StoresNaNAt (key : Bytes) (db : Dict) (step : Step) : Prop :=
  key = step.cmd.args.getD 0 [] ∧ StoresNaN db step

/-- **The log alone determines the key space**, if no NaN is stored as a score
since the last command that overwrites the key: a run without deadlines, `SPOP`
and half-done `ZADD`s is rebuilt from its log. -/
theorem replayLog_same (moments : Nat → Moment) {steps : List Step}
    (hfeed : ∀ step ∈ steps, step.cmd.Decoded)
    (hspop : ∀ step ∈ steps, normalize step.cmd.name ≠ ascii "SPOP")
    (hdeadline : Along (fun db step => ¬ SetsDeadline db step) ∅ steps)
    (hfloat : Along (fun db step => ¬ FloatError db step) ∅ steps)
    (hlen : ((new {}).run steps).log.length < 2 ^ 62)
    (hnan : ∀ key, SinceOverwrite key (fun db step => ¬ StoresNaNAt key db step) steps) :
    (replayLog moments ((new {}).run steps).log ∅).Same ((new {}).run steps).db := by
  intro key
  have hdb : ((new {}).run steps).db = runDb ∅ steps := run_db _ _
  rw [replayLog_run moments ∅ hfeed hlen, hdb]
  refine ((rebuilds_clean moments key).of_sinceOverwrite ((hnan key).imp
    (((along_of_forall (fun step hstep _ => hspop step hstep) ∅).and hdeadline).and hfloat)
    fun db step hkey h => ?_) (Dict.get_empty key)).rel_same
  exact ⟨h.1.1, fun _ => h.1.2, fun hk hs => hkey ⟨hk, hs⟩, fun _ => h.2⟩

theorem decoded_of_length {steps : List Step}
    (h : ∀ step ∈ steps, step.cmd.args.length ≤ 255 ∧ step.cmd.encode.length < 2 ^ 62) :
    ∀ step ∈ steps, step.cmd.Decoded :=
  fun step hstep => RespCommand.decoded (h step hstep).1 (h step hstep).2

/-- Words that make every node of a sorted set one level high. -/
def flatWords : Nat → Nat → Nat := fun _ _ => 1

/-- Words that make the first node two levels high. -/
def tallFirst : Nat → Nat → Nat := fun i j => if i = 0 ∧ j = 0 then 0 else 1

/-- A hash and a list. -/
def plainSteps : List Step :=
  [ ⟨⟨0, flatWords⟩, ⟨ascii "HSET", [ascii "h", ascii "f", ascii "v"]⟩⟩,
    ⟨⟨0, flatWords⟩, ⟨ascii "RPUSH", [ascii "l", ascii "a", ascii "b"]⟩⟩ ]

theorem replayLog_same_plain :
    (replayLog (fun _ => ⟨0, flatWords⟩) ((new {}).run plainSteps).log ∅).Same
      ((new {}).run plainSteps).db :=
  replayLog_same _ (decoded_of_length (by decide +kernel)) (by decide)
    ⟨RespCommand.not_setsDeadline (by decide) _, RespCommand.not_setsDeadline (by decide) _, trivial⟩
    ⟨fun h => absurd h.1 (by decide), fun h => absurd h.1 (by decide), trivial⟩
    (by decide +kernel)
    fun _ => .inl ⟨fun h => absurd h.2.1 (by decide), fun h => absurd h.2.1 (by decide), trivial⟩

/-- A sorted set with a NaN in it, emptied. -/
def nanSteps : List Step :=
  [ ⟨⟨0, tallFirst⟩, ⟨ascii "ZADD",
      [ascii "k", ascii "1", ascii "b", ascii "2", ascii "c", ascii "nan", ascii "a"]⟩⟩,
    ⟨⟨0, flatWords⟩, ⟨ascii "ZREM", [ascii "k", ascii "c", ascii "a", ascii "b"]⟩⟩ ]

/-- The key is gone from the run, and a replay with other heights keeps it. -/
theorem replayLog_nan :
    (∀ step ∈ nanSteps, step.cmd.Decoded) ∧
      (∀ step ∈ nanSteps, normalize step.cmd.name ≠ ascii "SPOP") ∧
      Along (fun db step => ¬ SetsDeadline db step) ∅ nanSteps ∧
      Along (fun db step => ¬ FloatError db step) ∅ nanSteps ∧
      ((new {}).run nanSteps).log.length < 2 ^ 62 ∧
      ¬ (replayLog (fun _ => ⟨0, flatWords⟩) ((new {}).run nanSteps).log ∅).Same
        ((new {}).run nanSteps).db := by
  refine ⟨decoded_of_length (by decide +kernel), by decide,
    ⟨RespCommand.not_setsDeadline (by decide) _, RespCommand.not_setsDeadline (by decide) _, trivial⟩,
    ⟨fun h => absurd h.2 (by decide +kernel), fun h => absurd h.1 (by decide), trivial⟩,
    by decide +kernel, fun hsame => ?_⟩
  have hrun : (((new {}).run nanSteps).db.get (ascii "k")).isSome = false := by decide +kernel
  have hreplay : ((replayLog (fun _ => ⟨0, flatWords⟩)
      ((new {}).run nanSteps).log ∅).get (ascii "k")).isSome = true := by decide +kernel
  have hsome := rel_isSome_eq (hsame (ascii "k"))
  exact absurd (hreplay.symm.trans (hsome.trans hrun)) (by decide)

/-- The command gives `key` a deadline. -/
def SetsDeadlineAt (key : Bytes) (db : Dict) (step : Step) : Prop :=
  key = step.cmd.args.getD 0 [] ∧ SetsDeadline db step

/-- **The log and the live view**: every key of the replay is as in the run at
any later time, if the key gets no deadline, and no NaN as a score, since the
last command that overwrites it. -/
theorem replayLog_live_same (moments : Nat → Moment) {steps : List Step}
    (hfeed : ∀ step ∈ steps, step.cmd.Decoded)
    (hspop : ∀ step ∈ steps, normalize step.cmd.name ≠ ascii "SPOP")
    (hfloat : Along (fun db step => ¬ FloatError db step) ∅ steps)
    (hlen : ((new {}).run steps).log.length < 2 ^ 62)
    (hsince : ∀ key, SinceOverwrite key
      (fun db step => ¬ SetsDeadlineAt key db step ∧ ¬ StoresNaNAt key db step) steps)
    (now : TimePoint) (key : Bytes) :
    Option.Rel RedisObject.Same ((replayLog moments ((new {}).run steps).log ∅).live now key)
      (((new {}).run steps).db.live now key) := by
  have hdb : ((new {}).run steps).db = runDb ∅ steps := run_db _ _
  rw [replayLog_run moments ∅ hfeed hlen, hdb]
  have hsim := @Rebuilds.of_sinceOverwrite moments key _ (rebuilds_clean moments key) steps ∅ 0
    ((hsince key).imp ((along_of_forall (fun step hstep _ => hspop step hstep) ∅).and hfloat)
    fun db step hkey h => ⟨h.1, fun hk hd => hkey.1 ⟨hk, hd⟩, fun hk hs => hkey.2 ⟨hk, hs⟩,
      fun _ => h.2⟩) (Dict.get_empty key)
  rw [hsim.permanent.1.live, hsim.permanent.2.live]
  exact hsim.rel_same

/-- A deadline that a plain `SET` takes away. -/
def persistSteps : List Step :=
  [ ⟨⟨0, flatWords⟩, ⟨ascii "SET", [ascii "k", ascii "v", ascii "EX", ascii "10"]⟩⟩,
    ⟨⟨1000000000, flatWords⟩, ⟨ascii "SET", [ascii "k", ascii "w"]⟩⟩ ]

theorem replayLog_live_same_persist :
    Option.Rel RedisObject.Same
      ((replayLog (fun _ => ⟨5000000000, flatWords⟩) ((new {}).run persistSteps).log ∅).live
        5000000000 (ascii "k"))
      (((new {}).run persistSteps).db.live 5000000000 (ascii "k")) :=
  @replayLog_live_same _ persistSteps (decoded_of_length (by decide +kernel)) (by decide)
    ⟨fun h => absurd h.1 (by decide), fun h => absurd h.1 (by decide), trivial⟩
    (by decide +kernel)
    (fun key => by
      by_cases hkey : key = ascii "k"
      · exact .inr ⟨persistSteps.take 1, _, [], rfl, .inr ⟨hkey, .inl ⟨by decide, by decide⟩⟩, trivial⟩
      · exact .inl ⟨⟨fun h => hkey h.1, fun h => hkey h.1⟩, ⟨fun h => hkey h.1, fun h => hkey h.1⟩,
          trivial⟩)
    5000000000 (ascii "k")

/-- A key with ten seconds to live. -/
def expireSteps : List Step :=
  [⟨⟨0, flatWords⟩, ⟨ascii "SET", [ascii "k", ascii "v", ascii "EX", ascii "10"]⟩⟩]

/-- Replayed five seconds later, the key gets its ten seconds again. -/
theorem replayLog_deadline :
    (∀ step ∈ expireSteps, step.cmd.Decoded) ∧
      (∀ step ∈ expireSteps, normalize step.cmd.name ≠ ascii "SPOP") ∧
      Along (fun db step => ¬ FloatError db step) ∅ expireSteps ∧
      ((replayLog (fun _ => ⟨5000000000, flatWords⟩) ((new {}).run expireSteps).log ∅).live
        5000000000 (ascii "k")).map RedisObject.expireAt = some (some 15000000000) ∧
      (((new {}).run expireSteps).db.live 5000000000 (ascii "k")).map RedisObject.expireAt =
        some (some 10000000000) ∧
      ¬ Option.Rel RedisObject.Same
        ((replayLog (fun _ => ⟨5000000000, flatWords⟩) ((new {}).run expireSteps).log ∅).live
          5000000000 (ascii "k"))
        (((new {}).run expireSteps).db.live 5000000000 (ascii "k")) := by
  have hreplay : ((replayLog (fun _ => ⟨5000000000, flatWords⟩)
      ((new {}).run expireSteps).log ∅).live 5000000000 (ascii "k")).map RedisObject.expireAt =
        some (some 15000000000) := by decide +kernel
  have hrun : (((new {}).run expireSteps).db.live 5000000000 (ascii "k")).map
      RedisObject.expireAt = some (some 10000000000) := by decide +kernel
  refine ⟨decoded_of_length (by decide +kernel), by decide, ⟨fun h => absurd h.1 (by decide), trivial⟩,
    hreplay, hrun, fun hrel => ?_⟩
  exact absurd (hreplay.symm.trans ((rel_expireAt_eq hrel).trans hrun)) (by decide)

end RedisServer

end RedisLike
