import RedisLike.Lib.Journal
import RedisLike.Server.Replay
import RedisLike.Server.Serial

/-!
# RedisLike.Server.OpLog

The log of the operations, and its replays.

An operation appends its command, or nothing.  What is kept by every command that
is logged, and by its replay with another clock and other random words, is a
`ReplayRelation`; it holds behind any operations if it holds before them
(`ReplayRelation.records`).
-/

namespace RedisLike

open RedisServer

/-! ## The log -/

/-- The command that an operation appends to the log. -/
def Op.logged (db : Dict) : Op → Option RespCommand
  | .command _ step => if logs db step then some step.cmd else none
  | _ => none

/-- The operations, with the log. -/
def opJournal : Journal Dict Op RespCommand UInt8 := ⟨Op.after, Op.logged, RespCommand.encode⟩

theorem RedisServer.perform_log (server : RedisServer) (op : Op) :
    (server.perform op).log =
      server.log ++ (op.logged server.db).toList.flatMap RespCommand.encode := by
  cases op with
  | accept fd => exact (List.append_nil _).symm
  | expireCheck now rng => exact (List.append_nil _).symm
  | command fd step =>
      rw [perform, process, Op.logged]
      by_cases hlogs : logs server.db step = true
      · simp [hlogs, appendToAof]
      · simp [hlogs]

theorem RedisServer.foldl_perform_log (server : RedisServer) (ops : List Op) :
    (ops.foldl perform server).log = server.log ++ opJournal.bytes server.db ops := by
  induction ops generalizing server with
  | nil => exact (List.append_nil _).symm
  | cons op ops ih =>
      rw [List.foldl_cons, ih, perform_log, perform_db, Journal.bytes_cons, List.append_assoc]
      rfl

theorem opJournal_bytes (db : Dict) (ops : List Op) :
    opJournal.bytes db ops = encodeAll (opJournal.records db ops) := by
  rw [Journal.bytes, encodeAll, List.flatMap_def]
  rfl

theorem mem_records {db : Dict} {ops : List Op} {cmd : RespCommand}
    (h : cmd ∈ opJournal.records db ops) :
    normalize cmd.name ∈ AofLogger.writes ∧ ∃ fd step, .command fd step ∈ ops ∧ step.cmd = cmd := by
  induction ops generalizing db with
  | nil => exact absurd h List.not_mem_nil
  | cons op ops ih =>
      rw [Journal.records, List.mem_append] at h
      obtain h | h := h
      · cases op with
        | accept fd => exact absurd h List.not_mem_nil
        | expireCheck now rng => exact absurd h List.not_mem_nil
        | command fd step =>
            by_cases hlogs : logs db step = true
            · obtain rfl : step.cmd = cmd := by simpa [opJournal, Op.logged, hlogs, eq_comm] using h
              exact ⟨normalize_mem_of_logs hlogs, fd, step, List.mem_cons_self, rfl⟩
            · simp [opJournal, Op.logged, hlogs] at h
      · obtain ⟨hwrite, fd, step, hmem, hcmd⟩ := ih h
        exact ⟨hwrite, fd, step, List.mem_cons_of_mem op hmem, hcmd⟩

/-- The operations of a process are commands that `Feed` has returned. -/
theorem Process.main_decoded (env : Process.Startup) (inputs : List TickInput) :
    ∀ fd step, Op.command fd step ∈ (Process.trace env inputs).ops → step.cmd.Decoded := by
  refine @Trace.run_rule (fun _ t => ∀ fd step, Op.command fd step ∈ t.ops → step.cmd.Decoded)
    (fun _ _ => True) ?_ ?_ ?_ _ {} ?_ inputs fun _ _ _ _ _ => trivial
  · intro p t fd h fd' step hmem
    exact h fd' step (by simpa using hmem)
  · intro p t fd ev _ h fd' step hmem
    rw [Trace.onClientEvent, List.mem_append] at hmem
    obtain hmem | hmem := hmem
    · exact h fd' step hmem
    obtain ⟨s, hs, heq⟩ := List.mem_map.mp hmem
    cases heq
    obtain ⟨-, hserved⟩ | ⟨client, -, hserved⟩ := Network.onClientEvent_reads p.net fd ev
    · rw [hserved] at hs
      exact absurd hs List.not_mem_nil
    · rw [hserved, Network.readEvent] at hs
      split at hs
      · have hbatch := Network.processCommands_batched ev.moments 0
          (client.codec.feed ev.received).1
          { client with codec := (client.codec.feed ev.received).2 } p.net.server
        exact ⟨client.codec, ev.received, hbatch.commands ▸ List.mem_map_of_mem hs⟩
      · exact absurd hs List.not_mem_nil
  · intro p t now rng h fd step hmem
    exact h fd step (by simpa using hmem)
  · intro fd step hmem
    exact absurd hmem List.not_mem_nil

/-! ## Entries in a run and in its replay -/

theorem EntrySim.symm {e e' : Option RedisObject} (h : EntrySim e e') : EntrySim e' e := by
  cases h with
  | none => exact EntrySim.none
  | some h => exact Option.Rel.some ⟨h.same.symm, h.right, h.left, h.permanent', h.permanent⟩

theorem ValueVariant.Same.trans {v v' v'' : ValueVariant} (h : v.Same v') (h' : v'.Same v'') :
    v.Same v'' := by
  cases v <;> cases v' <;> first | exact h.elim | skip
  all_goals cases v'' <;> first | exact h'.elim | skip
  case string.string.string => exact Eq.trans h h'
  case list.list.list => exact Eq.trans h h'
  case hash.hash.hash => exact fun f => (h f).trans (h' f)
  case set.set.set => exact fun m => (h m).trans (h' m)
  case zset.zset.zset => exact ⟨h.1.trans h'.1, h.2.trans h'.2⟩

theorem EntrySim.trans {e e' e'' : Option RedisObject} (h : EntrySim e e') (h' : EntrySim e' e'') :
    EntrySim e e'' := by
  cases h with
  | none => exact h'
  | some h =>
      cases h' with
      | some h' =>
          exact Option.Rel.some ⟨h.same.trans h'.same, h.left, h'.right, h.permanent, h'.permanent'⟩

/-- What the command does to the key comes out the same in a replay. -/
def Retraced (key : Bytes) (db : Dict) (step : Step) : Prop :=
  key = step.cmd.args.getD 0 [] → Clean key db step

/-- Every command of the operations meets `P` in the state before it. -/
def AlongOps (P : Dict → Step → Prop) (db : Dict) : List Op → Prop
  | [] => True
  | op :: ops => (∀ fd step, op = .command fd step → P db step) ∧ AlongOps P (op.after db) ops

theorem alongOps_append {P : Dict → Step → Prop} {db : Dict} {ops ops' : List Op} :
    AlongOps P db (ops ++ ops') ↔ AlongOps P db ops ∧ AlongOps P (runOps db ops) ops' := by
  induction ops generalizing db with
  | nil => exact (and_iff_right trivial).symm
  | cons op ops ih => rw [List.cons_append, AlongOps, AlongOps, ih, and_assoc, runOps_cons]

/-- The periodic check leaves an entry without a deadline alone. -/
theorem get_expireCheck_of_permanent {db : Dict} {key : Bytes} (h : Permanent (db.get key))
    (now : TimePoint) (rng : Nat → Nat) : (expireCheck now rng db).get key = db.get key := by
  obtain hget | ⟨-, obj, hobj, he⟩ := get_expireCheck now rng db key
  · exact hget
  · rw [RedisObject.isExpired_of_expireAt_none (h obj hobj)] at he
    contradiction

/-! ## Two runs -/

section sim

variable {key : Bytes} {db db' : Dict}

theorem get_command {step : Step} (h : Permanent (db.get key)) :
    (response db step).2.get key = entryEffect step.cmd step.now step.rng key (db.get key) := by
  rw [response_eq]
  exact get_execute h

/-- **One operation** does the same to equivalent entries. -/
theorem Op.after_sim {op : Op} (hop : ∀ fd step, op = .command fd step → Retraced key db step)
    (h : EntrySim (db.get key) (db'.get key)) :
    EntrySim ((op.after db).get key) ((op.after db').get key) := by
  obtain ⟨hperm, hperm'⟩ := h.permanent
  cases op with
  | accept fd => exact h
  | expireCheck now rng =>
      rw [Op.after, Op.after, get_expireCheck_of_permanent hperm,
        get_expireCheck_of_permanent hperm']
      exact h
  | command fd step =>
      rw [Op.after, Op.after, get_command hperm, get_command hperm']
      exact entryEffect_sim h fun hkey => (hop fd step rfl hkey).repeatable hperm hkey

/-- **A run** does the same to equivalent entries. -/
theorem runOps_sim {ops : List Op} (hops : AlongOps (Retraced key) db ops)
    (h : EntrySim (db.get key) (db'.get key)) :
    EntrySim ((runOps db ops).get key) ((runOps db' ops).get key) := by
  induction ops generalizing db db' with
  | nil => exact h
  | cons op ops ih => exact ih hops.2 (Op.after_sim hops.1 h)

end sim

/-! ## A run and the replay of its log -/

/-- A relation between an entry of a run and the same entry of a replay, which every
logged command that meets `P` keeps. -/
structure ReplayRelation (key : Bytes) (P : Dict → Step → Prop)
    (I : Option RedisObject → Option RedisObject → Prop) : Prop where
  permanent : ∀ {e e'}, I e e' → Permanent e ∧ Permanent e'
  sim : ∀ {e e₁ e'}, EntrySim e e₁ → I e e' → I e₁ e'
  retraced : ∀ {db step}, P db step → Retraced key db step
  step : ∀ {db : Dict} {step : Step} {e'} (m : Moment), P db step → logs db step = true →
    I (db.get key) e' → I (entryEffect step.cmd step.now step.rng key (db.get key))
      (entryEffect step.cmd m.now m.rng key e')

theorem entrySim_relation (key : Bytes) : ReplayRelation key (Retraced key) EntrySim where
  permanent h := h.permanent
  sim h h' := h.symm.trans h'
  retraced h := h
  step _ hP _ h := entryEffect_sim h fun hkey => (hP hkey).repeatable h.permanent.1 hkey

namespace ReplayRelation

variable {key : Bytes} {P : Dict → Step → Prop}
  {I : Option RedisObject → Option RedisObject → Prop}

/-- One operation, and the replay of what it logs. -/
theorem op (hI : ReplayRelation key P I) (moments : Nat → Moment) {op : Op} {db : Dict}
    {s : Nat × Dict} (hop : ∀ fd step, op = .command fd step → P db step)
    (h : I (db.get key) (s.2.get key)) :
    I ((op.after db).get key)
      (((op.logged db).toList.foldl (replayCommand moments) s).2.get key) := by
  obtain ⟨hperm, hperm'⟩ := hI.permanent h
  cases op with
  | accept fd => exact h
  | expireCheck now rng =>
      rw [Op.after, get_expireCheck_of_permanent hperm]
      exact h
  | command fd step =>
      have hP := hop fd step rfl
      have hget := get_response hperm fun hkey => (hI.retraced hP hkey).not_halfApplied hkey
      rw [Op.after, Op.logged]
      by_cases hlogs : logs db step = true
      · rw [if_pos hlogs] at hget ⊢
        obtain ⟨i, d⟩ := s
        rw [Option.toList_some, List.foldl_cons, List.foldl_nil,
          replayCommand_of_mem_writes moments i d (normalize_mem_of_logs hlogs), hget,
          get_execute hperm']
        exact hI.step (moments i) hP hlogs h
      · rw [if_neg hlogs] at hget ⊢
        rwa [hget]

/-- **The operations**, and the replay of their log. -/
theorem records (hI : ReplayRelation key P I) (moments : Nat → Moment) {ops : List Op} {db : Dict}
    {s : Nat × Dict} (hops : AlongOps P db ops) (h : I (db.get key) (s.2.get key)) :
    I ((runOps db ops).get key)
      (((opJournal.records db ops).foldl (replayCommand moments) s).2.get key) := by
  induction ops generalizing db s with
  | nil => exact h
  | cons op ops ih =>
      rw [runOps_cons, Journal.records, List.foldl_append]
      exact ih hops.2 (hI.op moments hops.1 h)

end ReplayRelation

end RedisLike
