import RedisLike.Command.Congruence
import RedisLike.Server

/-!
# RedisLike.Server.Log

What is in the log of a run, and the replay of it.

`ProcessCommand` leaves the key space as `Execute` does, and a command that it
does not log has changed no entry without a deadline, a half-done `ZADD`
apart (`get_response`).  `replay_simulation` is the rule for the theorems
about the log: what relates an entry of the run to the entry of the replay, and
is kept by every logged command, relates them at the end.
-/

namespace RedisLike

namespace RedisServer

/-! ## The commands that are logged -/

theorem toUpper_toUpper (c : UInt8) : toUpper (toUpper c) = toUpper c := by
  unfold toUpper
  by_cases h : 97 ≤ c ∧ c ≤ 122
  · have hlt : ¬ (97 ≤ c - 32 ∧ c - 32 ≤ 122) := by
      rw [UInt8.le_iff_toNat_le, UInt8.le_iff_toNat_le] at h ⊢
      rw [UInt8.toNat_sub_of_le _ _ (by rw [UInt8.le_iff_toNat_le]; exact le_trans (by decide) h.1)]
      have h122 : c.toNat ≤ 122 := h.2
      have h97 : (97 : UInt8).toNat = 97 := rfl
      have h32 : (32 : UInt8).toNat = 32 := rfl
      omega
    rw [if_pos h, if_neg hlt]
  · rw [if_neg h, if_neg h]

theorem isWriteCommand_normalize (name : Bytes) :
    AofLogger.isWriteCommand (normalize name) = true ↔ normalize name ∈ AofLogger.writes := by
  have hmap : (normalize name).map toUpper = normalize name := by
    rw [normalize, List.map_map]
    exact List.map_congr_left fun c _ => toUpper_toUpper c
  rw [AofLogger.isWriteCommand, hmap, decide_eq_true_iff]

/-- **The table of the log is right**: a command that is not in it writes nothing. -/
theorem mem_writes_of_mem_writeActions : ∀ p ∈ writeActions, p.1 ∈ AofLogger.writes := by
  have hall : ∀ name ∈ writeActions.map Prod.fst, name ∈ AofLogger.writes := by decide
  exact fun p hp => hall p.1 (List.mem_map_of_mem hp)

/-- The commands of the log are registered, and are none of those that a replay skips. -/
theorem writes_registered {name : Bytes} (h : name ∈ AofLogger.writes) :
    commandExists name = true ∧
      ¬ (name = ascii "QUIT" ∨ name = ascii "PING" ∨ name = ascii "COMMAND") := by
  have hall : ∀ name ∈ AofLogger.writes, commandExists name = true ∧
      ¬ (name = ascii "QUIT" ∨ name = ascii "PING" ∨ name = ascii "COMMAND") := by decide
  exact hall name h

/-! ## One command -/

/-- `ProcessCommand` responds what `Execute` does, whatever the command. -/
theorem response_eq (db : Dict) (step : Step) : response db step = execute (step.context db) := by
  unfold response
  by_cases hquit : normalize step.cmd.name = ascii "QUIT"
  · have hf : findHandler (ascii "QUIT") = some quitCmd := rfl
    rw [if_pos hquit, execute, Step.context, hquit, hf]
    rfl
  · rw [if_neg hquit]
    split
    · rfl
    · next hexists =>
      have hf : findHandler (normalize step.cmd.name) = none := by
        simpa [commandExists] using hexists
      rw [execute, Step.context, hf]

/-- Some score that is no number has stopped a `ZADD`. -/
def FloatError (db : Dict) (step : Step) : Prop :=
  normalize step.cmd.name = ascii "ZADD" ∧ (response db step).1 = notValidFloat

theorem isError_of_isPrefixOf {reply : Bytes} (h : (ascii "-ERR").isPrefixOf reply = true) :
    isError reply = true := by
  obtain ⟨t, rfl⟩ := List.isPrefixOf_iff_prefix.mp h
  rfl

theorem normalize_mem_of_logs {db : Dict} {step : Step} (h : logs db step = true) :
    normalize step.cmd.name ∈ AofLogger.writes := by
  rw [logs, Bool.and_eq_true] at h
  exact (isWriteCommand_normalize _).mp h.1

/-- A `ZADD` that is half done says which score has stopped it. -/
theorem floatError_of_halfApplied {db : Dict} {step : Step}
    (h : HalfApplied (step.context db)) : FloatError db step :=
  ⟨h.name, by rw [response_eq]; exact h.reply⟩

/-- A command with an effect on the entry is logged, a half-done `ZADD` apart. -/
theorem get_response {db : Dict} {step : Step} {key : Bytes} (h : Permanent (db.get key))
    (hhalf : key = step.cmd.args.getD 0 [] → ¬ HalfApplied (step.context db)) :
    (response db step).2.get key =
      if logs db step then entryEffect step.cmd step.now step.rng key (db.get key)
      else db.get key := by
  have hget : (response db step).2.get key =
      entryEffect step.cmd step.now step.rng key (db.get key) := by
    rw [response_eq]
    exact get_execute h
  by_cases hlogs : logs db step = true
  · rw [if_pos hlogs, hget]
  rw [if_neg hlogs]
  rw [logs, Bool.and_eq_true, not_and, Bool.not_eq_true', Bool.not_eq_false] at hlogs
  by_cases hwrite : normalize step.cmd.name ∈ AofLogger.writes
  · have herror := isError_of_isPrefixOf (hlogs ((isWriteCommand_normalize _).mpr hwrite))
    by_cases hother : normalize step.cmd.name = ascii "ZADD" ∧ key ≠ step.cmd.args.getD 0 []
    · obtain ⟨hname, hkey⟩ := hother
      have hact : writeActions.lookup (ascii "ZADD") =
        some fun args _ rng => zAddAction args rng := rfl
      rw [hget, entryEffect, hname, if_neg (by decide), hact]
      exact if_neg hkey
    · rw [response_eq] at herror ⊢
      refine get_execute_of_error h herror fun hx => ?_
      exact hhalf (not_not.mp fun hne => hother ⟨hx.name, hne⟩) hx
  · rw [hget, entryEffect]
    have hdel : normalize step.cmd.name ≠ ascii "DEL" := fun hdel => hwrite (hdel ▸ by decide)
    rw [if_neg hdel]
    cases hact : writeActions.lookup (normalize step.cmd.name) with
    | none => rfl
    | some act =>
        exact absurd (mem_writes_of_mem_writeActions _ (mem_of_lookup_eq_some hact)) hwrite

/-- A `ZADD` that a score stops, on a sorted set or a missing key, says so. -/
theorem floatError_of_stopsAtScore {db : Dict} {step : Step}
    (h : step.cmd.StopsAtScore (db.live step.now (step.cmd.args.getD 0 []))) :
    FloatError db step := by
  obtain ⟨hname, h3, hodd, htype, hstop⟩ := h
  refine ⟨hname, ?_⟩
  have hf : findHandler (ascii "ZADD") = some zAddCmd := rfl
  have hspec : Performs (CmdHandler.on zAddCmd (step.context db)) step.now
      (step.cmd.args.getD 0 []) (zAddAction step.cmd.args step.rng) :=
    zAddCmd_performs (step.context db)
  rw [zAddAction_stopped step.rng (by omega) hstop] at hspec
  have hreply : (response db step).1 = (zAddStopped step.cmd.args step.rng
      (db.live step.now (step.cmd.args.getD 0 []))).1 := by
    rw [response_eq, execute, Step.context, hname, hf]
    exact (hspec db).1
  rw [hreply]
  unfold zAddStopped
  cases hl : db.live step.now (step.cmd.args.getD 0 []) with
  | none => rfl
  | some obj =>
      obtain ⟨sl, hsl⟩ := sortedSets.exists_wrap obj.value (htype obj hl)
      rw [Option.getD_some, hsl]
      rfl

/-! ## Runs -/

/-- The key space behind a run of commands. -/
def runDb (db : Dict) (steps : List Step) : Dict :=
  steps.foldl (fun db step => (response db step).2) db

/-- The commands of a run that are logged. -/
def loggedCommands (db : Dict) : List Step → List RespCommand
  | [] => []
  | step :: steps =>
    if logs db step then step.cmd :: loggedCommands (response db step).2 steps
    else loggedCommands (response db step).2 steps

theorem process_db (server : RedisServer) (step : Step) :
    (server.process step).db = (response server.db step).2 := by
  unfold process
  dsimp only
  split <;> rfl

theorem run_db (server : RedisServer) (steps : List Step) :
    (server.run steps).db = runDb server.db steps := by
  induction steps generalizing server with
  | nil => rfl
  | cons step steps ih =>
      rw [run, List.foldl_cons, ← run, ih, process_db]
      rfl

/-- **What is in the log**: the encodings of the logged commands, in order. -/
theorem run_log (server : RedisServer) (steps : List Step) :
    (server.run steps).log = server.log ++ encodeAll (loggedCommands server.db steps) := by
  induction steps generalizing server with
  | nil => exact (List.append_nil _).symm
  | cons step steps ih =>
      rw [run, List.foldl_cons, ← run, ih, process_db, loggedCommands]
      by_cases hlogs : logs server.db step = true
      · rw [if_pos hlogs, encodeAll_cons, process]
        simp only [hlogs, if_true, appendToAof, List.append_assoc]
      · rw [if_neg hlogs, process]
        simp only [hlogs, if_false, Bool.false_eq_true]

/-- Every step of the run meets `P` in the state before it. -/
def Along (P : Dict → Step → Prop) (db : Dict) : List Step → Prop
  | [] => True
  | step :: steps => P db step ∧ Along P (response db step).2 steps

theorem Along.imp {P Q : Dict → Step → Prop} (hPQ : ∀ db step, P db step → Q db step) {db : Dict}
    {steps : List Step} (h : Along P db steps) : Along Q db steps := by
  induction steps generalizing db with
  | nil => trivial
  | cons step steps ih => exact ⟨hPQ db step h.1, ih h.2⟩

theorem Along.and {P Q : Dict → Step → Prop} {db : Dict} {steps : List Step}
    (hP : Along P db steps) (hQ : Along Q db steps) :
    Along (fun db step => P db step ∧ Q db step) db steps := by
  induction steps generalizing db with
  | nil => trivial
  | cons step steps ih => exact ⟨⟨hP.1, hQ.1⟩, ih hP.2 hQ.2⟩

theorem along_append {P : Dict → Step → Prop} {db : Dict} {steps steps' : List Step} :
    Along P db (steps ++ steps') ↔ Along P db steps ∧ Along P (runDb db steps) steps' := by
  induction steps generalizing db with
  | nil => exact (and_iff_right trivial).symm
  | cons step steps ih =>
      rw [List.cons_append, Along, Along, ih, and_assoc]
      rfl

theorem along_of_forall {P : Dict → Step → Prop} {steps : List Step}
    (h : ∀ step ∈ steps, ∀ db, P db step) (db : Dict) : Along P db steps := by
  induction steps generalizing db with
  | nil => trivial
  | cons step steps ih =>
      exact ⟨h step (by simp) db, ih (fun s hs => h s (List.mem_cons_of_mem step hs)) _⟩

end RedisServer

end RedisLike
