import RedisLike.Lib.Footprint
import RedisLike.Server.Log

/-!
# RedisLike.Server.Footprint

The keys that a command touches.

`KEYS` apart, a command reads and writes the entries of its keys alone
(`execute_touches`), so commands with disjoint keys commute; and one that is
not in the table of the log writes nothing, expired entries apart
(`response_local`).
-/

namespace RedisLike

/-- The keys of a command. -/
def RespCommand.keys (cmd : RespCommand) : List Bytes :=
  let name := normalize cmd.name
  if name = ascii "DEL" ∨ name = ascii "EXISTS" then cmd.args
  else if name = ascii "PING" ∨ name = ascii "COMMAND" then []
  else cmd.args.take 1

/-! ## The shapes -/

/-- An action touches the entry of its key. -/
theorem Performs.touches {f : Dict → Bytes × Dict} {now : TimePoint} {key : Bytes} {a : KeyAction}
    (hf : Performs f now key a) : Touches Dict.get {key} f := by
  cases a with
  | idle reply =>
      have hconst : f = fun db => (reply, db) := funext hf
      rw [hconst]
      exact .const Dict.get _ reply
  | act g =>
      have hlive : ∀ db db' : Dict, Set.EqOn db.get db'.get {key} →
          db.live now key = db'.live now key := fun db db' h => by
        rw [Dict.live, Dict.live, h rfl]
      refine ⟨fun db k hk => ?_, fun db db' h => ?_, fun db db' h k hk => ?_⟩
      · rw [Set.mem_singleton_iff] at hk
        rw [(hf db).2 k, if_neg hk]
      · rw [(hf db).1, (hf db').1, hlive db db' h]
      · rw [Set.mem_singleton_iff] at hk
        rw [(hf db).2 k, (hf db').2 k, if_pos hk, if_pos hk, hlive db db' h]

theorem delLoop_fst_congr (keys : List Bytes) {db db' : Dict} (count : Nat)
    (h : ∀ k ∈ keys, db.get k = db'.get k) :
    (delLoop keys db count).1 = (delLoop keys db' count).1 := by
  induction keys generalizing db db' count with
  | nil => rfl
  | cons key keys ih =>
      rw [delLoop, delLoop, Dict.del_fst, Dict.del_fst, h key (by simp)]
      refine ih _ fun k hk => ?_
      rw [Dict.get_del, Dict.get_del, h k (List.mem_cons_of_mem key hk)]

theorem delCmd_touches (cmd : RespCommand) (now : TimePoint) (rng : Nat → Nat → Nat) :
    Touches Dict.get {k | k ∈ cmd.args} fun db => delCmd ⟨db, cmd, now, rng⟩ := by
  unfold delCmd
  by_cases hargs : cmd.args.isEmpty = true
  · simp only [if_pos hargs]
    exact .const Dict.get _ _
  · simp only [if_neg hargs]
    refine ⟨fun db k hk => ?_, fun db db' h => ?_, fun db db' h k hk => ?_⟩
    · rw [Set.mem_ofPred_eq] at hk
      rw [get_delLoop, if_neg hk]
    · rw [delLoop_fst_congr cmd.args 0 h]
    · rw [Set.mem_ofPred_eq] at hk
      rw [get_delLoop, get_delLoop, if_pos hk, if_pos hk]

theorem existsCmd_touches (cmd : RespCommand) (now : TimePoint) (rng : Nat → Nat → Nat) :
    Touches Dict.get {k | k ∈ cmd.args} fun db => existsCmd ⟨db, cmd, now, rng⟩ := by
  unfold existsCmd
  by_cases hargs : cmd.args.isEmpty = true
  · simp only [if_pos hargs]
    exact .const Dict.get _ _
  · simp only [if_neg hargs]
    have hlive : ∀ {db db' : Dict}, Set.EqOn db.get db'.get {k | k ∈ cmd.args} →
        ∀ k ∈ cmd.args, db.live now k = db'.live now k := fun h k hk => by
      rw [Dict.live, Dict.live, h hk]
    refine ⟨fun db k hk => ?_, fun db db' h => ?_, fun db db' h k hk => ?_⟩
    · rw [Set.mem_ofPred_eq] at hk
      rw [get_existsLoop, if_neg hk]
    · have hcount : ∀ k ∈ cmd.args,
          ((db.live now k).isSome = true ↔ (db'.live now k).isSome = true) := fun k hk => by
        rw [hlive h k hk]
      rw [(existsLoop_spec now cmd.args db 0).1, (existsLoop_spec now cmd.args db' 0).1,
        List.countP_congr hcount]
    · rw [Set.mem_ofPred_eq] at hk
      rw [get_existsLoop, get_existsLoop, if_pos hk, if_pos hk, hlive h k hk]

/-- Without arguments no command looks at the key space. -/
theorem commandTable_noArgs : ∀ p ∈ commandTable, ∀ (name : Bytes) (now : TimePoint)
    (rng : Nat → Nat → Nat) (db : Dict),
      p.2 ⟨db, ⟨name, []⟩, now, rng⟩ = ((p.2 ⟨∅, ⟨name, []⟩, now, rng⟩).1, db) := by
  simp only [commandTable, List.forall_mem_cons, List.not_mem_nil, false_imp_iff, implies_true,
    and_true]
  refine ⟨?_, ?_, ?_, ?_, ?_, ?_, ?_, ?_, ?_, ?_, ?_, ?_, ?_, ?_, ?_, ?_, ?_, ?_, ?_, ?_, ?_, ?_,
    ?_, ?_, ?_, ?_, ?_, ?_, ?_, ?_, ?_, ?_, ?_, ?_, ?_, ?_, ?_, ?_, ?_, ?_, ?_, ?_, ?_⟩ <;>
    exact fun _ _ _ _ => rfl

/-! ## All commands -/

/-- A key command touches its first argument, and nothing when it has none. -/
theorem touches_take_one {cmd : RespCommand} {now : TimePoint} {rng : Nat → Nat → Nat}
    {handler : CmdHandler} (hf : findHandler (normalize cmd.name) = some handler) {a : KeyAction}
    (hspec : Performs (fun db => handler ⟨db, cmd, now, rng⟩) now (cmd.args.getD 0 []) a) :
    Touches Dict.get {k | k ∈ cmd.args.take 1} fun db => handler ⟨db, cmd, now, rng⟩ := by
  obtain ⟨name, args⟩ := cmd
  cases args with
  | nil =>
      rw [funext (commandTable_noArgs _ (mem_of_lookup_eq_some hf) name now rng)]
      exact .const Dict.get _ _
  | cons key args =>
      refine hspec.touches.mono fun k hk => ?_
      rw [Set.mem_singleton_iff] at hk
      simp [hk]

/-- **Commands are local**: a command touches the entries of its keys alone. -/
theorem execute_touches {cmd : RespCommand} (hkeys : normalize cmd.name ≠ ascii "KEYS")
    (now : TimePoint) (rng : Nat → Nat → Nat) :
    Touches Dict.get {k | k ∈ cmd.keys} fun db => execute ⟨db, cmd, now, rng⟩ := by
  cases hf : findHandler (normalize cmd.name) with
  | none =>
      have hexec : (fun db => execute ⟨db, cmd, now, rng⟩) =
          fun db => (unknownCommand cmd.name, db) := funext fun db => execute_of_not_found hf
      rw [hexec]
      exact .const Dict.get _ _
  | some handler =>
      rw [show (fun db => execute ⟨db, cmd, now, rng⟩) = fun db => handler ⟨db, cmd, now, rng⟩ from
        funext fun db => execute_of_findHandler hf]
      unfold RespCommand.keys
      dsimp only
      by_cases hmany : normalize cmd.name = ascii "DEL" ∨ normalize cmd.name = ascii "EXISTS"
      · rw [if_pos hmany]
        rcases hmany with hname | hname <;> rw [hname] at hf <;> cases hf
        · exact delCmd_touches cmd now rng
        · exact existsCmd_touches cmd now rng
      rw [if_neg hmany]
      by_cases hnone : normalize cmd.name = ascii "PING" ∨ normalize cmd.name = ascii "COMMAND"
      · rw [if_pos hnone]
        rcases hnone with hname | hname <;> rw [hname] at hf <;> cases hf
        · exact .const Dict.get _ (pingCmd ⟨∅, cmd, now, rng⟩).1
        · exact .const Dict.get _ RespCodec.emptyArray
      · rw [if_neg hnone]
        obtain ⟨act, -, ha⟩ | ⟨-, hr | ⟨hname, -⟩ | ⟨hname, -⟩ | ⟨hname, -⟩⟩ := findHandler_spec hf
        · exact touches_take_one hf (ha ⟨∅, cmd, now, rng⟩)
        · obtain ⟨a, ha, -⟩ := hr ⟨∅, cmd, now, rng⟩
          exact touches_take_one hf ha
        · exact absurd (.inl hname) hmany
        · exact absurd (.inr hname) hmany
        · exact absurd hname hkeys

/-- A command that is not in the table of the log writes nothing. -/
theorem get_execute_of_not_write {cmd : RespCommand}
    (hwrite : AofLogger.isWriteCommand cmd.name = false) (now : TimePoint)
    (rng : Nat → Nat → Nat) (db : Dict) (k : Bytes) :
    (execute ⟨db, cmd, now, rng⟩).2.get k = db.get k ∨
      (execute ⟨db, cmd, now, rng⟩).2.get k = none ∧ db.HasExpired now k := by
  have hnot : normalize cmd.name ∉ AofLogger.writes := of_decide_eq_false hwrite
  cases hf : findHandler (normalize cmd.name) with
  | none =>
      rw [@execute_of_not_found ⟨db, cmd, now, rng⟩ hf]
      exact .inl rfl
  | some handler =>
      rw [@execute_of_findHandler ⟨db, cmd, now, rng⟩ handler hf]
      obtain ⟨act, hact, -⟩ | ⟨-, hr | ⟨hname, -⟩ | ⟨-, rfl⟩ | ⟨-, rfl⟩⟩ := findHandler_spec hf
      · have hact := mem_of_lookup_eq_some hact
        exact absurd (RedisServer.mem_writes_of_mem_writeActions _ hact) hnot
      · obtain ⟨a, ha, hro⟩ := hr ⟨db, cmd, now, rng⟩
        cases a with
        | idle reply => exact .inl (congrArg (fun r => Dict.get r.2 k) (ha db))
        | act g => exact ha.kept (hro _) k
      · exact absurd (hname ▸ by decide) hnot
      · unfold existsCmd
        dsimp only
        split
        · exact .inl rfl
        · rw [get_existsLoop]
          split
          · by_cases hx : db.HasExpired now k
            · exact .inr ⟨Dict.live_of_hasExpired hx, hx⟩
            · exact .inl (Dict.live_eq_get hx)
          · exact .inl rfl
      · unfold keysCmd
        dsimp only
        split
        · exact .inl rfl
        · exact get_keysLoop_or now _ db.keys db k

namespace RedisServer

/-- **Commands are local, and independent commands commute.**  `KEYS` apart, a
command touches the entries of its keys alone; one that is not in the table of
the log leaves those as well, expired entries apart; and two commands without a
common key give the same replies and leave the same entries in either order. -/
theorem response_local {step : Step} (hname : normalize step.cmd.name ≠ ascii "KEYS") :
    Touches Dict.get {k | k ∈ step.cmd.keys} (fun db => response db step) ∧
      (AofLogger.isWriteCommand step.cmd.name = false → ∀ db k,
        (response db step).2.get k = db.get k ∨
          (response db step).2.get k = none ∧ db.HasExpired step.now k) ∧
      ∀ step' : Step, normalize step'.cmd.name ≠ ascii "KEYS" →
        (∀ k ∈ step.cmd.keys, k ∉ step'.cmd.keys) → ∀ db,
          (response (response db step').2 step).1 = (response db step).1 ∧
          (response (response db step).2 step').1 = (response db step').1 ∧
          ∀ k, (response (response db step').2 step).2.get k =
            (response (response db step).2 step').2.get k := by
  have htouches : ∀ step : Step, normalize step.cmd.name ≠ ascii "KEYS" →
      Touches Dict.get {k | k ∈ step.cmd.keys} fun db => response db step := by
    intro step hname
    simp only [response_eq]
    exact execute_touches hname step.now step.rng
  refine ⟨htouches step hname, fun hwrite db k => ?_, fun step' hname' hdisjoint db => ?_⟩
  · rw [response_eq]
    exact get_execute_of_not_write hwrite step.now step.rng db k
  · exact (htouches step hname).comm (htouches step' hname')
      (Set.disjoint_left.mpr hdisjoint) db

/-- A pop of `s`. -/
def spopStep : Step := ⟨⟨0, fun _ _ => 5⟩, ⟨ascii "spop", [ascii "s"]⟩⟩

/-- A deletion of two other keys. -/
def delStep : Step := ⟨⟨7, fun _ _ => 0⟩, ⟨ascii "DEL", [ascii "a", ascii "b"]⟩⟩

/-- A set `s` and a string `a`. -/
def setAndString : Dict :=
  ((∅ : Dict).set (ascii "s") (.create (.set ⟨[ascii "x", ascii "y"], by decide⟩))).set (ascii "a")
    (.create (.string (ascii "v")))

theorem response_local_spop :
    (response (response setAndString delStep).2 spopStep).1 =
        (response setAndString spopStep).1 ∧
      (response (response setAndString spopStep).2 delStep).1 =
        (response setAndString delStep).1 ∧
      ∀ k, (response (response setAndString delStep).2 spopStep).2.get k =
        (response (response setAndString spopStep).2 delStep).2.get k :=
  (@response_local spopStep (by decide)).2.2 delStep (by decide) (by decide) setAndString

end RedisServer

end RedisLike
