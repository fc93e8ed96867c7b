import RedisLike.Command.Atomic

/-!
# RedisLike.Command.Effect

What a command does to one entry of the key space.

For an entry without a deadline this is a function of that entry alone
(`get_execute`): the key space is a product of independent entries, and runs of
commands can be followed key by key.
-/

namespace RedisLike

/-- The entry, when there is one, has no deadline. -/
def Permanent (e : Option RedisObject) : Prop := ∀ obj, e = some obj → obj.expireAt = none

theorem permanent_none : Permanent none := by
  intro obj h
  cases h

theorem Permanent.live {db : Dict} {key : Bytes} (h : Permanent (db.get key)) (now : TimePoint) :
    db.live now key = db.get key := liveEntry_of_expireAt_none h now

/-- What an action leaves of the entry. -/
def KeyAction.after : KeyAction → Option RedisObject → Option RedisObject
  | idle _, e => e
  | act g, e => (g e).2

/-- What a command leaves of the entry of a key. -/
def entryEffect (cmd : RespCommand) (now : TimePoint) (rng : Nat → Nat → Nat) (key : Bytes)
    (e : Option RedisObject) : Option RedisObject :=
  if normalize cmd.name = ascii "DEL" then
    if key ∈ cmd.args then none else e
  else
    match writeActions.lookup (normalize cmd.name) with
    | none => e
    | some act => if key = cmd.args.getD 0 [] then (act cmd.args now rng).after e else e

/-! ## The effect of every command -/

section effect

variable {ctx : CmdContext} {key : Bytes}

theorem Performs.get {f : Dict → Bytes × Dict} {now : TimePoint} {k : Bytes} {a : KeyAction}
    (hf : Performs f now k a) {db : Dict} (h : Permanent (db.get key)) :
    (f db).2.get key = if key = k then a.after (db.get key) else db.get key := by
  cases a with
  | idle reply =>
      rw [hf db]
      exact (ite_self _).symm
  | act g =>
      rw [(hf db).2 key]
      by_cases hk : key = k
      · rw [if_pos hk, if_pos hk, ← hk, h.live]
        rfl
      · rw [if_neg hk, if_neg hk]

theorem get_delLoop (keys : List Bytes) (db : Dict) (count : Nat) :
    (delLoop keys db count).2.get key = if key ∈ keys then none else db.get key := by
  induction keys generalizing db count with
  | nil => simp [delLoop]
  | cons k keys ih =>
      rw [delLoop, ih, Dict.get_del]
      by_cases hm : key ∈ keys <;> by_cases hk : key = k <;> simp [hm, hk]

theorem get_keysLoop (now : TimePoint) (pattern : Bytes) (keys : List Bytes) {db : Dict}
    (h : Permanent (db.get key)) :
    (keysLoop now pattern keys db).2.get key = db.get key := by
  induction keys generalizing db with
  | nil => rfl
  | cons k keys ih =>
      rw [keysLoop]
      cases hg : db.get k with
      | none => exact ih h
      | some obj =>
          by_cases he : obj.isExpired now = true
          · -- an entry that is deleted here has a deadline
            have hne : key ≠ k := by
              rintro rfl
              rw [RedisObject.isExpired_of_expireAt_none (h obj hg) now] at he
              contradiction
            have hget : (db.del k).2.get key = db.get key := by rw [Dict.get_del, if_neg hne]
            simp only [he, if_true]
            rw [ih (hget ▸ h), hget]
          · simp only [he, if_false, Bool.false_eq_true]
            exact ih h

/-- The names of the writing commands are registered. -/
theorem isSome_findHandler_of_writeActions {name : Bytes}
    (h : (writeActions.lookup name).isSome) : (findHandler name).isSome := by
  obtain ⟨p, hp, heq⟩ := List.lookup_isSome_iff.mp h
  have hname : name = p.1 := by simpa using heq
  have hall : ∀ p ∈ writeActions, (findHandler p.1).isSome := by
    simp only [writeActions, List.forall_mem_cons, List.not_mem_nil, false_imp_iff, implies_true,
      and_true]
    decide
  rw [hname]
  exact hall p hp

/-- **The key space is a product of entries**: on an entry without a deadline, a
command does what its `entryEffect` says, whatever the others hold. -/
theorem get_execute (h : Permanent (ctx.db.get key)) :
    (execute ctx).2.get key =
      entryEffect ctx.cmd ctx.now ctx.rng key (ctx.db.get key) := by
  unfold execute entryEffect
  by_cases hdel : normalize ctx.cmd.name = ascii "DEL"
  · have hf : findHandler (ascii "DEL") = some delCmd := rfl
    rw [if_pos hdel, hdel, hf]
    dsimp only [delCmd]
    by_cases hargs : ctx.cmd.args.isEmpty = true
    · have hnil : ctx.cmd.args = [] := by simpa using hargs
      simp [hnil]
    · rw [if_neg hargs]
      exact get_delLoop ctx.cmd.args ctx.db 0
  rw [if_neg hdel]
  cases hf : findHandler (normalize ctx.cmd.name) with
  | none =>
      have hlookup : writeActions.lookup (normalize ctx.cmd.name) = none := by
        by_contra hne
        have := isSome_findHandler_of_writeActions (Option.isSome_iff_ne_none.mpr hne)
        rw [hf] at this
        contradiction
      rw [hlookup]
  | some handler =>
      obtain ⟨act, hact, ha⟩ | ⟨hnone, hr | ⟨hn, -⟩ | ⟨-, rfl⟩ | ⟨-, rfl⟩⟩ := findHandler_spec hf
      · rw [hact]
        exact (ha ctx).get h
      · obtain ⟨a, ha, hro⟩ := hr ctx
        have hafter : a.after (ctx.db.get key) = ctx.db.get key := by
          cases a with
          | idle reply => rfl
          | act g => exact hro _
        have hget := ha.get h
        rw [hafter, ite_self] at hget
        rw [hnone]
        exact hget
      · exact absurd hn hdel
      · rw [hnone]
        dsimp only [existsCmd]
        split
        · rfl
        · rw [get_existsLoop, h.live, ite_self]
      · rw [hnone]
        dsimp only [keysCmd]
        split
        · rfl
        · exact get_keysLoop ctx.now (ctx.arg 0) ctx.db.keys h

end effect

/-! ## Errors -/

/-- The reply of a `ZADD` that some score stops. -/
def notValidFloat : Bytes := RespCodec.error (ascii "ERR value is not a valid float")

theorem HalfApplied.reply {ctx : CmdContext} (h : HalfApplied ctx) :
    (execute ctx).1 = notValidFloat := by
  have hf : findHandler (normalize ctx.cmd.name) = some zAddCmd := by
    rw [h.name]
    rfl
  have harity : ¬ (ctx.cmd.args.length < 3 ∨ ctx.cmd.args.length % 2 ≠ 1) := by
    have := h.arity
    omega
  have hspec := zAddCmd_performs ctx
  rw [zAddAction_stopped ctx.rng harity h.stopped] at hspec
  have hreply : (execute ctx).1 = (zAddStopped ctx.cmd.args ctx.rng
      (ctx.db.live ctx.now (ctx.arg 0))).1 := by
    rw [execute_of_findHandler hf]
    exact (hspec ctx.db).1
  rw [hreply]
  unfold zAddStopped
  cases hl : ctx.db.live ctx.now (ctx.arg 0) with
  | none => rfl
  | some obj =>
      obtain ⟨sl, hsl, -⟩ := h.changed obj hl
      simp only [Option.getD_some, hsl]
      rfl

/-- A command that fails, and is not half done, leaves the entry as it is. -/
theorem get_execute_of_error {ctx : CmdContext} {key : Bytes} (h : Permanent (ctx.db.get key))
    (herror : isError (execute ctx).1 = true) (hhalf : ¬ HalfApplied ctx) :
    (execute ctx).2.get key = ctx.db.get key := by
  have hatomic : FailsAtomically ctx := by
    by_cases hname : normalize ctx.cmd.name = ascii "ZADD"
    · exact (zAddCmd_atomic_iff hname).mpr hhalf
    · exact failsAtomically_of_ne_zadd hname
  rcases hatomic herror key with hget | ⟨-, obj, hobj, he⟩
  · exact hget
  · rw [RedisObject.isExpired_of_expireAt_none (h obj hobj)] at he
    contradiction

end RedisLike
