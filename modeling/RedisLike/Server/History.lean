import RedisLike.PeriodicCheck
import RedisLike.Server.Footprint

/-!
# RedisLike.Server.History

What the server does to its key space, one operation after another.

The server has one thread, so whatever its clients do comes to it as a list of
operations: connections, commands, and the periodic look for expired keys.  An
operation that does not write to a key leaves what is seen of the key as it is
(`live_runOps`), at every time that is not before the operations.
-/

namespace RedisLike

open RedisServer

/-- `expire_.PeriodicCheck(db_, now)`, with the default sample size. -/
def expireCheck (now : TimePoint) (rng : Nat → Nat) (db : Dict) : Dict :=
  ((periodicCheck rng db now 20).map fun r => r.2.1).getD db

/-- What the server does: it accepts a client, it processes a command of one, or
it looks for expired keys. -/
inductive Op where
  | accept (fd : Nat)
  | command (fd : Nat) (step : Step)
  | expireCheck (now : TimePoint) (rng : Nat → Nat)

namespace Op

/-- The key space behind an operation. -/
def after (db : Dict) : Op → Dict
  | accept _ => db
  | command _ step => (response db step).2
  | expireCheck now rng => RedisLike.expireCheck now rng db

/-- The time that an operation reads from the clock. -/
def time : Op → Option TimePoint
  | accept _ => none
  | command _ step => some step.now
  | expireCheck now _ => some now

/-- The operation is a command that may write to the key. -/
def Writes (key : Bytes) : Op → Prop
  | command _ step => AofLogger.isWriteCommand step.cmd.name = true ∧ key ∈ step.cmd.keys
  | _ => False

instance (key : Bytes) (op : Op) : Decidable (op.Writes key) := by
  cases op
  case command fd step => exact inferInstanceAs (Decidable (_ ∧ _))
  all_goals exact instDecidableFalse

end Op

/-- The key space behind some operations. -/
def runOps (db : Dict) (ops : List Op) : Dict := ops.foldl Op.after db

@[simp] theorem runOps_nil (db : Dict) : runOps db [] = db := rfl

@[simp] theorem runOps_cons (db : Dict) (op : Op) (ops : List Op) :
    runOps db (op :: ops) = runOps (op.after db) ops := rfl

theorem runOps_append (db : Dict) (ops ops' : List Op) :
    runOps db (ops ++ ops') = runOps (runOps db ops) ops' := List.foldl_append

/-- The clock does not go back. -/
def ClockForward (ops : List Op) : Prop := (ops.filterMap Op.time).Pairwise (· ≤ ·)

instance (ops : List Op) : Decidable (ClockForward ops) :=
  inferInstanceAs (Decidable (List.Pairwise _ _))

/-- No operation reads a later time. -/
def Until (now : TimePoint) (ops : List Op) : Prop := ∀ op ∈ ops, ∀ t ∈ op.time, t ≤ now

theorem ClockForward.append {ops ops' : List Op} (h : ClockForward (ops ++ ops')) :
    ClockForward ops ∧ ClockForward ops' := by
  rw [ClockForward, List.filterMap_append, List.pairwise_append] at h
  exact ⟨h.1, h.2.1⟩

/-- The operations before a command are not later. -/
theorem ClockForward.until {pre post : List Op} {fd : Nat} {step : Step}
    (h : ClockForward (pre ++ .command fd step :: post)) : Until step.now pre := by
  rw [ClockForward, List.filterMap_append, List.pairwise_append] at h
  intro op hop t ht
  refine h.2.2 t (List.mem_filterMap.mpr ⟨op, hop, ht⟩) step.now ?_
  simp [Op.time]

/-- The parts of a run are not later either. -/
theorem Until.of_append {now : TimePoint} {ops ops' : List Op} (h : Until now (ops ++ ops')) :
    Until now ops ∧ Until now ops' :=
  ⟨fun op hop => h op (List.mem_append_left ops' hop),
    fun op hop => h op (List.mem_append_right ops hop)⟩

/-! ## Expired keys -/

theorem RedisObject.isExpired_mono {obj : RedisObject} {now now' : TimePoint} (hle : now ≤ now')
    (h : obj.isExpired now = true) : obj.isExpired now' = true := by
  unfold isExpired at h ⊢
  cases he : obj.expireAt with
  | none =>
      rw [he] at h
      contradiction
  | some at_ =>
      simp only [he, decide_eq_true_eq] at h ⊢
      exact Int64.le_trans h hle

theorem liveEntry_of_le {now now' : TimePoint} (hle : now ≤ now') (e : Option RedisObject) :
    liveEntry now' (liveEntry now e) = liveEntry now' e := by
  cases e with
  | none => rfl
  | some obj =>
      by_cases he : obj.isExpired now = true
      · simp [liveEntry, Option.filter, he, RedisObject.isExpired_mono hle he]
      · simp [liveEntry, Option.filter, he]

theorem Dict.HasExpired.mono {db : Dict} {key : Bytes} {now now' : TimePoint} (hle : now ≤ now')
    (h : db.HasExpired now key) : db.HasExpired now' key := by
  obtain ⟨obj, hobj, he⟩ := h
  exact ⟨obj, hobj, RedisObject.isExpired_mono hle he⟩

/-- The periodic check removes expired entries only. -/
theorem get_expireCheck (now : TimePoint) (rng : Nat → Nat) (db : Dict) (key : Bytes) :
    (expireCheck now rng db).get key = db.get key ∨
      (expireCheck now rng db).get key = none ∧ db.HasExpired now key := by
  obtain ⟨r, s, heq, hfrom, -⟩ := @exists_periodicCheck rng db now 20 (by decide)
  rw [expireCheck, heq]
  exact (hfrom.get_cases key).imp id And.symm

/-! ## Operations that do not write to a key -/

/-- A command that may not write to the key removes at most an expired entry. -/
theorem get_response_of_not_writes {fd : Nat} {step : Step} {key : Bytes}
    (h : ¬ (Op.command fd step).Writes key) (db : Dict) :
    (response db step).2.get key = db.get key ∨
      (response db step).2.get key = none ∧ db.HasExpired step.now key := by
  rw [response_eq, Step.context]
  by_cases hwrite : AofLogger.isWriteCommand step.cmd.name = true
  · have hkeys : normalize step.cmd.name ≠ ascii "KEYS" := by
      intro hname
      have hmem : normalize step.cmd.name ∈ AofLogger.writes := of_decide_eq_true hwrite
      rw [hname] at hmem
      exact absurd hmem (by decide)
    exact .inl ((execute_touches hkeys step.now step.rng).frame db key fun hkey => h ⟨hwrite, hkey⟩)
  · exact get_execute_of_not_write (by simpa using hwrite) step.now step.rng db key

/-- **One operation** that does not write to the key. -/
theorem Op.get_after {op : Op} {key : Bytes} (h : ¬ op.Writes key) (db : Dict) :
    (op.after db).get key = db.get key ∨
      (op.after db).get key = none ∧ ∃ t ∈ op.time, db.HasExpired t key := by
  cases op with
  | accept fd => exact .inl rfl
  | command fd step =>
      exact (get_response_of_not_writes h db).imp id fun ⟨hnone, he⟩ => ⟨hnone, step.now, rfl, he⟩
  | expireCheck now rng =>
      exact (get_expireCheck now rng db key).imp id fun ⟨hnone, he⟩ => ⟨hnone, now, rfl, he⟩

theorem Op.live_after {op : Op} {key : Bytes} (h : ¬ op.Writes key) {now : TimePoint}
    (htime : ∀ t ∈ op.time, t ≤ now) (db : Dict) :
    (op.after db).live now key = db.live now key := by
  obtain hget | ⟨hnone, t, ht, he⟩ := op.get_after h db
  · rw [Dict.live, hget, Dict.live]
  · rw [Dict.live_of_hasExpired (he.mono (htime t ht)), Dict.live, hnone]
    rfl

/-- **A run** that does not write to the key: at any time that is not before it,
the entry is seen as it was. -/
theorem live_runOps {ops : List Op} {key : Bytes} (h : ∀ op ∈ ops, ¬ op.Writes key)
    {now : TimePoint} (htime : Until now ops) (db : Dict) :
    (runOps db ops).live now key = db.live now key := by
  induction ops generalizing db with
  | nil => rfl
  | cons op ops ih =>
      rw [List.forall_mem_cons] at h
      rw [Until, List.forall_mem_cons] at htime
      rw [runOps_cons, ih h.2 htime.2, op.live_after h.1 htime.1]

/-- A key that is read, that another deletion passes by, and that a check looks for. -/
theorem live_runOps_get :
    (runOps (Dict.set ∅ (ascii "k") (RedisObject.createString []))
        [.command 5 ⟨⟨2, fun _ _ => 0⟩, ⟨ascii "get", [ascii "k"]⟩⟩,
          .command 6 ⟨⟨2, fun _ _ => 0⟩, ⟨ascii "DEL", [ascii "b"]⟩⟩,
          .expireCheck 3 fun _ => 0]).live 4 (ascii "k") =
      (Dict.set ∅ (ascii "k") (RedisObject.createString [])).live 4 (ascii "k") :=
  @live_runOps
    [.command 5 ⟨⟨2, fun _ _ => 0⟩, ⟨ascii "get", [ascii "k"]⟩⟩,
      .command 6 ⟨⟨2, fun _ _ => 0⟩, ⟨ascii "DEL", [ascii "b"]⟩⟩, .expireCheck 3 fun _ => 0]
    (ascii "k") (by decide) 4 (by simp [Until, Op.time]) _

end RedisLike
