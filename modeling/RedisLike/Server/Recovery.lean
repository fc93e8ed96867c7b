import RedisLike.Server.Resumed
import RedisLike.Storage.Torn

/-!
# RedisLike.Server.Recovery

Crashes and restarts, and the starts behind them.

A process that is killed leaves its log, cut at some byte; one that stops leaves the
whole log, and a snapshot.  The next one starts on these files.  After any number of
such lives, a process that is killed loses no operation whose command is in the log:
whatever starts on what it leaves has the keys as they were at some moment of the
run (`Lives.crash_recovers`).
-/

namespace RedisLike

open RedisServer

/-! ## Files -/

theorem RedisServer.foldl_perform_dump (server : RedisServer) (ops : List Op) :
    (ops.foldl perform server).dump = server.dump := by
  induction ops generalizing server with
  | nil => rfl
  | cons op ops ih =>
      rw [List.foldl_cons, ih]
      cases op with
      | accept fd => rfl
      | expireCheck now rng => rfl
      | command fd step =>
          rw [perform, process]
          split <;> rfl

theorem started_server {env : Process.Startup} (h : env.fd.isSome = true) :
    (Process.started env).net.server =
      ⟨replayLog env.moments (env.files.appendonly.getD [])
        (RdbSaver.load env.rng env.files.dump ∅).2, env.files.dump,
        env.files.appendonly.getD []⟩ := by
  obtain ⟨fd, hfd⟩ := Option.isSome_iff_exists.mp h
  rw [Process.started, hfd]
  rfl

/-- The log of a process: what it has started on, and what its operations append. -/
theorem main_log {env : Process.Startup} (h : env.fd.isSome = true) (inputs : List TickInput) :
    (Process.main env inputs).net.server.log = env.files.appendonly.getD [] ++
      opJournal.bytes (Process.started env).net.server.db (Process.trace env inputs).ops := by
  rw [(Process.main_explains env inputs).state, foldl_perform_log, started_server h]

/-- The files that a process leaves when it stops. -/
theorem stop_files {env : Process.Startup} (h : env.fd.isSome = true) (inputs : List TickInput) :
    (Process.main env inputs).stop.1 =
      ⟨if (Process.main env inputs).net.server.db.size > 0 then
          some (RdbSaver.save (Process.main env inputs).net.server.db)
        else env.files.dump,
        some (env.files.appendonly.getD [] ++
          opJournal.bytes (Process.started env).net.server.db
            (Process.trace env inputs).ops)⟩ := by
  have hdump : (Process.main env inputs).net.server.dump = env.files.dump := by
    rw [(Process.main_explains env inputs).state, foldl_perform_dump, started_server h]
  rw [← main_log h, ← hdump]
  rfl

theorem replayLog_eq_replayed (moments : Nat → Moment) (log : Bytes) (db : Dict) :
    replayLog moments log db = ((replayed log).foldl (replayCommand moments) (0, db)).2 := by
  have hcollect : ∀ (l init : List RespCommand),
      l.foldl (fun cmds cmd => cmds ++ [cmd]) init = init ++ l := by
    intro l
    induction l with
    | nil => exact fun init => (List.append_nil init).symm
    | cons cmd l ih => exact fun init => (ih _).trans (List.append_assoc init [cmd] l)
  rw [replayLog, replayed, AofLogger.replay, AofLogger.replay, hcollect]
  rfl

theorem encodeAll_append (cmds cmds' : List RespCommand) :
    encodeAll (cmds ++ cmds') = encodeAll cmds ++ encodeAll cmds' := by
  rw [encodeAll, List.map_append, List.flatten_append, encodeAll, encodeAll]

theorem replayed_encodeAll {cmds : List RespCommand} (hcmds : ∀ cmd ∈ cmds, Loggable cmd)
    (hlen : (encodeAll cmds).length < 2 ^ 62) : replayed (encodeAll cmds) = cmds := by
  have happend := @replayed_encodeAll_append cmds hcmds [] (by rwa [List.append_nil])
  rw [List.append_nil] at happend
  rw [happend, respScanner.run_of_none rfl]
  exact List.append_nil cmds

/-- The commands that a process logs. -/
theorem loggable_of_mem_records {env : Process.Startup} {inputs : List TickInput} {db : Dict}
    {ops : List Op} (hops : ops <+: (Process.trace env inputs).ops) :
    ∀ cmd ∈ opJournal.records db ops, Loggable cmd := by
  intro cmd hcmd
  obtain ⟨hwrite, fd, step, hmem, rfl⟩ := mem_records hcmd
  exact ⟨hwrite, (Process.main_decoded env inputs fd step (hops.subset hmem)).length_args⟩

/-- The commands of a log that is cut. -/
theorem replayed_cut {env : Process.Startup} {inputs : List TickInput} {db : Dict}
    {pre post : List Op} {p torn : Bytes} {cmds : List RespCommand}
    (hcmds : ∀ cmd ∈ cmds, Loggable cmd)
    (hcut : opJournal.Cut db (Process.trace env inputs).ops p pre post torn)
    (hlen : (encodeAll cmds).length +
      (opJournal.bytes db (Process.trace env inputs).ops).length < 2 ^ 62) :
    replayed (encodeAll (cmds ++ opJournal.records db pre) ++ torn) =
      cmds ++ opJournal.records db pre := by
  have hrecords : ∀ ops, ops <+: (Process.trace env inputs).ops →
      ∀ cmd ∈ opJournal.records db ops, Loggable cmd := fun _ => loggable_of_mem_records
  have hall : ∀ cmd ∈ cmds ++ opJournal.records db pre, Loggable cmd := fun cmd hcmd =>
    (List.mem_append.mp hcmd).elim (hcmds cmd) (hrecords pre ⟨post, hcut.ops_eq.symm⟩ cmd)
  rw [opJournal_bytes] at hlen
  obtain rfl | ⟨c, hc, hne, rest, hrest⟩ := hcut.torn_eq
  · rw [hcut.ops_eq, Journal.records_append, encodeAll_append, List.length_append] at hlen
    rw [List.append_nil]
    exact replayed_encodeAll hall (by
      rw [encodeAll_append, List.length_append]
      omega)
  · have hmem : c ∈ opJournal.records db (Process.trace env inputs).ops := by
      rw [← hrest]
      simp
    rw [← hrest, encodeAll_append, encodeAll_append, encodeAll_cons, List.length_append,
      List.length_append, List.length_append] at hlen
    exact replayed_torn hall (hrecords _ (List.prefix_refl _) c hmem).args hc hne (by
      rw [encodeAll_append, List.length_append]
      omega)

/-! ## Lives -/

/-- The key space fits a snapshot, and what is not among the keys is well formed. -/
structure FitsSnapshot (keys : Set Bytes) (db : Dict) : Prop where
  names : ∀ key ∈ db.keys, key.length < 2 ^ 32
  small : ∀ key obj, db.get key = some obj → RdbSaver.Small obj.value
  others : ∀ key ∉ keys, ∀ obj, db.get key = some obj → obj.value.WellFormed

/-- The life of a process that has started, as far as some operations. -/
def lifeOf (env : Process.Startup) (ops : List Op) : Life :=
  ⟨(Process.started env).net.server.db, ops⟩

/-- Lives of the server, and the files they leave.  Every life starts on the files of
those before it.  It ends with a crash, behind some operations whose records are in
the log; or it stops, when every one of the keys survives a restart.  What is done to
the keys comes out the same in a replay. -/
inductive Lives (keys : Set Bytes) : List Life → Files → Prop
  | first : Lives keys [] {}
  | crash {lives : List Life} {env : Process.Startup} (inputs : List TickInput)
      {pre post : List Op} : Lives keys lives env.files → env.fd.isSome = true →
      (Process.trace env inputs).ops = pre ++ post →
      (∀ key ∈ keys, AlongOps (Retraced key) (Process.started env).net.server.db pre) →
      Lives keys (lives ++ [lifeOf env pre])
        ⟨env.files.dump, some (env.files.appendonly.getD [] ++
          opJournal.bytes (Process.started env).net.server.db pre)⟩
  | stop {lives : List Life} {env : Process.Startup} (inputs : List TickInput) :
      Lives keys lives env.files → env.fd.isSome = true →
      (∀ key ∈ keys, AlongOps (Retraced key) (Process.started env).net.server.db
        (Process.trace env inputs).ops) →
      FitsSnapshot keys (Process.main env inputs).net.server.db →
      (∀ key ∈ keys, Restarts key (lives ++ [lifeOf env (Process.trace env inputs).ops])) →
      Lives keys (lives ++ [lifeOf env (Process.trace env inputs).ops])
        (Process.main env inputs).stop.1

/-- What the files hold of the lives. -/
structure Journaled (keys : Set Bytes) (lives : List Life) (files : Files) : Prop where
  log : files.appendonly.getD [] = encodeAll (lives.flatMap Life.records)
  loggable : ∀ cmd ∈ lives.flatMap Life.records, Loggable cmd
  resumes : ∀ key ∈ keys, Resumes key none lives
  retraced : ∀ key ∈ keys, Throughout (Retraced key) lives
  rebuilt : ∀ key ∈ keys, ∀ rng moments, EntrySim (lastEntry key none lives)
    (((lives.flatMap Life.records).foldl (replayCommand moments)
      (0, (RdbSaver.load rng files.dump ∅).2)).2.get key)

section journaled

variable {keys : Set Bytes} {lives : List Life} {files : Files} {env : Process.Startup}

theorem flatMap_records_lifeOf (lives : List Life) (env : Process.Startup) (ops : List Op) :
    (lives ++ [lifeOf env ops]).flatMap Life.records = lives.flatMap Life.records ++
      opJournal.records (Process.started env).net.server.db ops := by
  rw [List.flatMap_append, List.flatMap_singleton]
  rfl

theorem journaled_nil (keys : Set Bytes) : Journaled keys [] {} where
  log := rfl
  loggable := by simp
  resumes _ _ := trivial
  retraced _ _ _ h := absurd h List.not_mem_nil
  rebuilt key _ rng _ := by
    rw [List.flatMap_nil, List.foldl_nil, RdbSaver.load, Dict.get_empty]
    exact EntrySim.none

/-- What a process has in its memory when it starts on the files. -/
theorem Journaled.started_db (h : Journaled keys lives env.files) (hlisten : env.fd.isSome = true)
    (hlen : (env.files.appendonly.getD []).length < 2 ^ 62) :
    (Process.started env).net.server.db =
      ((lives.flatMap Life.records).foldl (replayCommand env.moments)
        (0, (RdbSaver.load env.rng env.files.dump ∅).2)).2 := by
  rw [h.log] at hlen
  rw [started_server hlisten, h.log, replayLog_eq_replayed, replayed_encodeAll h.loggable hlen]

/-- **One life** more, on the snapshot of those before. -/
theorem Journaled.append (h : Journaled keys lives env.files) (hlisten : env.fd.isSome = true)
    (hlen : (env.files.appendonly.getD []).length < 2 ^ 62) {inputs : List TickInput}
    {pre : List Op} (hpre : pre <+: (Process.trace env inputs).ops)
    (hclean : ∀ key ∈ keys, AlongOps (Retraced key) (Process.started env).net.server.db pre) :
    Journaled keys (lives ++ [lifeOf env pre])
      ⟨env.files.dump, some (env.files.appendonly.getD [] ++
        opJournal.bytes (Process.started env).net.server.db pre)⟩ := by
  have hstart : ∀ key ∈ keys, EntrySim (lastEntry key none lives)
      ((Process.started env).net.server.db.get key) := fun key hkey => by
    rw [h.started_db hlisten hlen]
    exact h.rebuilt key hkey env.rng env.moments
  have hrecords := flatMap_records_lifeOf lives env pre
  constructor
  · rw [hrecords, encodeAll_append, ← opJournal_bytes, ← h.log]
    rfl
  · rw [hrecords]
    exact fun cmd hcmd => (List.mem_append.mp hcmd).elim (h.loggable cmd)
      (loggable_of_mem_records hpre cmd)
  · exact fun key hkey => resumes_append.mpr ⟨h.resumes key hkey, hstart key hkey, trivial⟩
  · exact fun key hkey => throughout_append.mpr ⟨h.retraced key hkey,
      throughout_cons.mpr ⟨hclean key hkey, fun _ hmem => absurd hmem List.not_mem_nil⟩⟩
  · intro key hkey rng moments
    rw [hrecords, List.foldl_append, lastEntry_append]
    exact (entrySim_relation key).records moments (hclean key hkey)
      ((hstart key hkey).symm.trans (h.rebuilt key hkey rng moments))

/-- An entry of the snapshot against the entry at `Stop`. -/
theorem sim_load_save (rng : Nat → Nat → Nat → Nat) {db : Dict} (hsize : db.size > 0)
    (hfits : RdbSaver.FitsRdb db) {key : Bytes} (hsim : EntrySim (db.get key) (db.get key)) :
    (RdbSaver.load rng (some (RdbSaver.save db)) ∅).2.get key = none ∨
      EntrySim (db.get key) ((RdbSaver.load rng (some (RdbSaver.save db)) ∅).2.get key) := by
  have hload := @sim_load_stop rng ⟨db, none, []⟩ rfl hfits key hsim
  rw [stop] at hload
  dsimp only at hload
  rwa [if_pos hsize] at hload

/-- A process that stops. -/
theorem Journaled.stop (h : Journaled keys lives env.files) (hlisten : env.fd.isSome = true)
    {inputs : List TickInput}
    (hlen : (Process.main env inputs).net.server.log.length < 2 ^ 62)
    (hclean : ∀ key ∈ keys, AlongOps (Retraced key) (Process.started env).net.server.db
      (Process.trace env inputs).ops)
    (hfits : FitsSnapshot keys (Process.main env inputs).net.server.db)
    (hrestarts : ∀ key ∈ keys,
      Restarts key (lives ++ [lifeOf env (Process.trace env inputs).ops])) :
    Journaled keys (lives ++ [lifeOf env (Process.trace env inputs).ops])
      (Process.main env inputs).stop.1 := by
  have hdb : (Process.main env inputs).net.server.db =
      (lifeOf env (Process.trace env inputs).ops).left := by
    rw [(Process.main_explains env inputs).state, foldl_perform_db]
    rfl
  rw [main_log hlisten, List.length_append] at hlen
  have happend := h.append hlisten (by omega) (List.prefix_refl _) hclean
  rw [stop_files hlisten]
  -- an empty key space leaves the snapshot that was there
  split
  swap
  · exact happend
  next hsize =>
  have hlast : ∀ key, lastEntry key none (lives ++ [lifeOf env (Process.trace env inputs).ops]) =
      (Process.main env inputs).net.server.db.get key := fun key => by
    rw [lastEntry_append, hdb]
    rfl
  have hgood : ∀ key ∈ keys, EntrySim ((Process.main env inputs).net.server.db.get key)
      ((Process.main env inputs).net.server.db.get key) := fun key hkey =>
    hlast key ▸ (happend.rebuilt key hkey (fun _ _ _ => 0) env.moments).left_refl
  have hfits' : RdbSaver.FitsRdb (Process.main env inputs).net.server.db := by
    refine ⟨hfits.names, fun key obj hobj => ⟨hfits.small key obj hobj, ?_⟩⟩
    by_cases hkey : key ∈ keys
    · exact ((hgood key hkey).good obj hobj).wellFormed
    · exact hfits.others key hkey obj hobj
  refine ⟨happend.log, happend.loggable, happend.resumes, happend.retraced,
    fun key hkey rng moments => ?_⟩
  refine (hrestarts key hkey).replay_sim moments (happend.resumes key hkey)
    (happend.retraced key hkey) ?_
  rw [hlast key]
  dsimp only
  exact sim_load_save rng hsize hfits' (hgood key hkey)

end journaled

/-- **The files of some lives** are those of whole commands, and every start on them
brings the keys back. -/
theorem Lives.journaled {keys : Set Bytes} {lives : List Life} {files : Files}
    (h : Lives keys lives files) (hlen : (files.appendonly.getD []).length < 2 ^ 62) :
    Journaled keys lives files := by
  induction h with
  | first => exact journaled_nil keys
  | @crash lives env inputs pre post _ hlisten hops hclean ih =>
      rw [Option.getD_some, List.length_append] at hlen
      exact (ih (by omega)).append hlisten (by omega) ⟨post, hops.symm⟩ hclean
  | @stop lives env inputs _ hlisten hclean hfits hrestarts ih =>
      have hlog : (Process.main env inputs).net.server.log.length < 2 ^ 62 := hlen
      refine (ih ?_).stop hlisten hlog hclean hfits hrestarts
      rw [main_log hlisten, List.length_append] at hlog
      exact lt_of_le_of_lt (Nat.le_add_right _ _) hlog

/-- **A crash loses no more than the end of the log.**  After any lives, a process
runs until it is killed, with `p` left of its log.  Whatever process starts on `p` and
the snapshot that was there has the keys as they were after some first operations of
the run, and no operation whose record is in `p` is behind those. -/
theorem Lives.crash_recovers {keys : Set Bytes} {lives : List Life} {env : Process.Startup}
    (h : Lives keys lives env.files) (hlisten : env.fd.isSome = true) (inputs : List TickInput)
    (hclean : ∀ key ∈ keys, AlongOps (Retraced key) (Process.started env).net.server.db
      (Process.trace env inputs).ops)
    (hlen : (Process.main env inputs).net.server.log.length < 2 ^ 62) {p : Bytes}
    (hp : p <+: (Process.main env inputs).net.server.log)
    (hold : env.files.appendonly.getD [] <+: p) :
    ∃ pre post, (Process.trace env inputs).ops = pre ++ post ∧
      (∀ pre' post', (Process.trace env inputs).ops = pre' ++ post' →
        (pre'.foldl perform (Process.started env).net.server).log.length ≤ p.length →
          pre'.length ≤ pre.length) ∧
      ∀ env' : Process.Startup, env'.files = ⟨env.files.dump, some p⟩ → env'.fd.isSome = true →
        ∀ key ∈ keys, Option.Rel RedisObject.Same ((Process.started env').net.server.db.get key)
          ((runOps ∅ (lives.flatMap Life.ops ++ pre)).get key) := by
  have hlog : (Process.started env).net.server.log = env.files.appendonly.getD [] := by
    rw [started_server hlisten]
  rw [main_log hlisten] at hp hlen
  rw [List.length_append] at hlen
  obtain ⟨p, rfl⟩ := hold
  obtain ⟨pre, post, torn, hcut⟩ := Journal.exists_cut ((List.prefix_append_right_inj _).mp hp)
  refine ⟨pre, post, hcut.ops_eq, fun pre' post' hops hle => ?_,
    fun env' hfiles hlisten' key hkey => ?_⟩
  · rw [foldl_perform_log, hlog, List.length_append, List.length_append] at hle
    exact hcut.kept pre' post' hops (by omega)
  · have hjournaled := h.journaled (by omega)
    have happend := hjournaled.append hlisten (by omega) ⟨post, hcut.ops_eq.symm⟩
      fun key hkey => (alongOps_append.mp (hcut.ops_eq ▸ hclean key hkey)).1
    have hbytes : env.files.appendonly.getD [] ++ p =
        encodeAll (lives.flatMap Life.records ++
          opJournal.records (Process.started env).net.server.db pre) ++ torn := by
      rw [hjournaled.log, hcut.bytes_eq, opJournal_bytes, encodeAll_append, List.append_assoc]
    have hreplay := happend.rebuilt key hkey env'.rng env'.moments
    have hrun := runOps_lives_sim (happend.resumes key hkey) (happend.retraced key hkey)
      (show EntrySim none ((∅ : Dict).get key) from Dict.get_empty key ▸ EntrySim.none)
    rw [List.flatMap_append, List.flatMap_singleton] at hrun
    rw [hjournaled.log] at hlen
    rw [started_server hlisten', hfiles, Option.getD_some, hbytes, replayLog_eq_replayed,
      replayed_cut hjournaled.loggable hcut hlen, ← flatMap_records_lifeOf]
    exact (hrun.symm.trans hreplay).rel_same

/-- A client that connects, and stores a field of a hash. -/
def fieldInputs (field : Bytes) : List TickInput :=
  let wait := Process.threeAndFive
    (RespCommand.encode ⟨ascii "HSET", [ascii "h", field, ascii "v"]⟩)
  [⟨wait, 0, fun _ => 0⟩, ⟨wait, 0, fun _ => 0⟩]

/-- What the client does. -/
def fieldOps (field : Bytes) : List Op :=
  [.accept 5, .command 5 ⟨⟨0, fun _ _ => 0⟩, ⟨ascii "HSET", [ascii "h", field, ascii "v"]⟩⟩]

/-- A process that starts on what the first client's server leaves when it stops. -/
def startedAgain : Process.Startup :=
  { Process.listening with
    files := (Process.main Process.listening (fieldInputs (ascii "f"))).stop.1 }

theorem fieldInputs_ops :
    (Process.trace Process.listening (fieldInputs (ascii "f"))).ops = fieldOps (ascii "f") ∧
      (Process.trace startedAgain (fieldInputs (ascii "g"))).ops = fieldOps (ascii "g") :=
  ⟨rfl, rfl⟩

theorem clean_field (field : Bytes) (db : Dict) :
    Clean (ascii "h") db ⟨⟨0, fun _ _ => 0⟩, ⟨ascii "HSET", [ascii "h", field, ascii "v"]⟩⟩ where
  name := (by decide : normalize (ascii "HSET") ≠ ascii "SPOP")
  deadline _ := RespCommand.not_setsDeadline (by decide : normalize (ascii "HSET") ∉ untyped) _
  nan _ h := absurd h.1 (by decide : normalize (ascii "HSET") ≠ ascii "ZADD")
  score _ h := absurd h.1 (by decide : normalize (ascii "HSET") ≠ ascii "ZADD")

theorem retraced_fieldOps (field : Bytes) (db : Dict) :
    ∀ key ∈ ({ascii "h"} : Set Bytes), AlongOps (Retraced key) db (fieldOps field) := by
  intro key hkey
  rw [Set.mem_singleton_iff.mp hkey]
  refine ⟨nofun, fun fd step hop _ => ?_, trivial⟩
  cases hop
  exact clean_field field _

theorem main_fieldInputs :
    (Process.main Process.listening (fieldInputs (ascii "f"))).net.server.db =
      (∅ : Dict).set (ascii "h") hashObject := rfl

theorem calmAt_fieldOps (field : Bytes) :
    AlongOps (CalmAt (ascii "h")) (∅ : Dict) (fieldOps field) := by
  have hkeeps : ¬ (⟨ascii "HSET", [ascii "h", field, ascii "v"]⟩ : RespCommand).Overwrites
      (ascii "h") := by
    have hne : normalize (ascii "HSET") ∉
        [ascii "DEL", ascii "SET", ascii "EXPIRE", ascii "PEXPIRE"] := by decide
    rintro (⟨hname, -⟩ | ⟨-, ⟨hname, -⟩ | ⟨hname | hname, -⟩⟩)
    all_goals
      have hname : normalize (ascii "HSET") = _ := hname
      exact hne (by rw [hname]; decide)
  refine ⟨nofun, fun fd step hop => ?_, trivial⟩
  cases hop
  refine ⟨hkeeps, fun _ => ⟨clean_field field _, RespCommand.not_setsDeadline
    (by decide : normalize (ascii "HSET") ∉ untyped), fun _ _ => ⟨?_, fun h => ?_⟩, hkeeps⟩⟩
  · intro t ht obj hobj
    cases hobj
  · exact absurd h.1 (by decide : normalize (ascii "HSET") ≠ ascii "SET")

/-- The life of a process that stores a field, and stops. -/
theorem lives_field : Lives {ascii "h"} [lifeOf Process.listening (fieldOps (ascii "f"))]
    startedAgain.files := by
  refine @Lives.stop _ [] Process.listening (fieldInputs (ascii "f")) .first rfl ?_ ?_ ?_
  · rw [fieldInputs_ops.1]
    exact retraced_fieldOps _ _
  · rw [main_fieldInputs]
    refine ⟨by decide, fun key obj hobj => ?_, fun key hkey obj hobj => ?_⟩
    · rw [Dict.get_set, Dict.get_empty] at hobj
      split at hobj
      · cases hobj
        exact ⟨by decide, by decide⟩
      · contradiction
    · have hne : key ≠ ascii "h" := fun h => hkey (Set.mem_singleton_iff.mpr h)
      rw [Dict.get_set, if_neg hne, Dict.get_empty] at hobj
      contradiction
  · intro key hkey
    rw [Set.mem_singleton_iff.mp hkey, fieldInputs_ops.1]
    have hlast : lastEntry (ascii "h") none
        ([] ++ [lifeOf Process.listening (fieldOps (ascii "f"))]) = some hashObject := rfl
    refine .inr (.inr ⟨fun obj hobj => ?_, fun life hlife => ?_⟩)
    · rw [hlast] at hobj
      cases hobj
      decide
    · rw [List.mem_singleton.mp hlife]
      exact calmAt_fieldOps _

/-- The next process is killed while it logs another field. -/
theorem crash_recovers_torn :
    ∃ pre post, fieldOps (ascii "g") = pre ++ post ∧
      ∀ env' : Process.Startup, env'.files = ⟨startedAgain.files.dump,
          some ((Process.main startedAgain (fieldInputs (ascii "g"))).net.server.log.take 50)⟩ →
        env'.fd.isSome = true →
        Option.Rel RedisObject.Same ((Process.started env').net.server.db.get (ascii "h"))
          ((runOps ∅ (fieldOps (ascii "f") ++ pre)).get (ascii "h")) := by
  obtain ⟨pre, post, hops, -, hkeys⟩ := @Lives.crash_recovers {ascii "h"} _ startedAgain lives_field
    rfl (fieldInputs (ascii "g")) (by rw [fieldInputs_ops.2]; exact retraced_fieldOps _ _)
    (by decide +kernel) _ (List.take_prefix 50 _) (by decide +kernel)
  rw [fieldInputs_ops.2] at hops
  exact ⟨pre, post, hops, fun env' hfiles hlisten =>
    hkeys env' hfiles hlisten _ (Set.mem_singleton _)⟩

end RedisLike
