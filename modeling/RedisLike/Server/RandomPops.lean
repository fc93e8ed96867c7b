import RedisLike.Command.NonEmpty
import RedisLike.Server.Replay

/-!
# RedisLike.Server.RandomPops

`SPOP` and the log.

The log has the command as it was sent, and a replay draws again.  So an entry
is rebuilt if each `SPOP` on it, since it was last overwritten, takes no member
or all of them; the random words behind the others are lost.
-/

namespace RedisLike

/-- The command is a `SPOP` that takes some members of the set `e`, not all. -/
def RespCommand.DrawsSome (cmd : RespCommand) (e : Option RedisObject) : Prop :=
  normalize cmd.name = ascii "SPOP" ∧ ∃ obj set count, e = some obj ∧ obj.value = .set set ∧
    sPopArg cmd.args = some count ∧ 0 < count ∧ count < set.size

/-- A pop of as many members as the set has. -/
theorem RespCommand.not_drawsSome_of_le {cmd : RespCommand} {e : Option RedisObject} {n : Nat}
    {count : Int} (hsize : (e.bind fun obj => obj.value.asSet).map UnorderedSet.size = some n)
    (hcount : sPopArg cmd.args = some count) (h : (n : Int) ≤ count) : ¬ cmd.DrawsSome e := by
  rintro ⟨-, obj, set, count', rfl, hset, hcount', -, hlt⟩
  have hn : set.size = n := by
    simpa only [Option.bind_some, hset, ValueVariant.asSet, Option.map_some,
      Option.some.injEq] using hsize
  have hc : count = count' := Option.some.inj (hcount.symm.trans hcount')
  omega

/-! ## One pop -/

theorem after_sPopAction {args : List Bytes} {count : Int} (hargs : args.isEmpty = false)
    (hcount : sPopArg args = some count) (rng : Nat → Nat → Nat) {obj : RedisObject}
    {set : RedisSet} (hset : obj.value = .set set) :
    (sPopAction args rng).after (some obj) =
      if (sPopDraw rng count set).2.empty then none
      else some (obj.withValue (.set (sPopDraw rng count set).2)) := by
  simp only [sPopAction, hargs, if_false, Bool.false_eq_true, hcount, KeyAction.remove,
    KeyAction.after, hset, ValueVariant.asSet]

/-- A pop of no member. -/
theorem after_sPopAction_of_nonpos {args : List Bytes} {count : Int} (hargs : args.isEmpty = false)
    (hcount : sPopArg args = some count) (h : count ≤ 0) (rng : Nat → Nat → Nat)
    {obj : RedisObject} {set : RedisSet} (hset : obj.value = .set set) (hne : set.empty = false) :
    (sPopAction args rng).after (some obj) = some obj := by
  have hdraw : sPopDraw rng count set = ([], set) := by
    have hzero : (if count > set.size then (set.size : Int) else count).toNat = 0 := by
      split <;> omega
    rw [sPopDraw, hzero]
    rfl
  rw [after_sPopAction hargs hcount rng hset, hdraw, hne, ← hset]
  exact congrArg some obj.withValue_value

/-- A pop of all members. -/
theorem after_sPopAction_of_le {args : List Bytes} {count : Int} (hargs : args.isEmpty = false)
    (hcount : sPopArg args = some count) (rng : Nat → Nat → Nat) {obj : RedisObject}
    {set : RedisSet} (hset : obj.value = .set set) (h : (set.size : Int) ≤ count) :
    (sPopAction args rng).after (some obj) = none := by
  rw [after_sPopAction hargs hcount rng hset, sPopDraw_of_le rng h, if_pos rfl]

/-- **A pop of nothing, or of everything**, does not depend on the draws. -/
theorem sPopAction_sim {cmd : RespCommand} (hname : normalize cmd.name = ascii "SPOP")
    {e e' : Option RedisObject} (h : EntrySim e e') (hdraws : ¬ cmd.DrawsSome e)
    (rng rng' : Nat → Nat → Nat) :
    EntrySim ((sPopAction cmd.args rng).after e) ((sPopAction cmd.args rng').after e') := by
  by_cases hargs : cmd.args.isEmpty = true
  · simp only [sPopAction, hargs, if_true]
    exact h
  rw [Bool.not_eq_true] at hargs
  cases hcount : sPopArg cmd.args with
  | none =>
      simp only [sPopAction, hargs, hcount, if_false, Bool.false_eq_true]
      exact h
  | some count =>
      cases h with
      | none =>
          simp only [sPopAction, hargs, hcount, if_false, Bool.false_eq_true]
          exact EntrySim.none
      | @some obj obj' hobj =>
          have htype := hobj.same.objType_eq
          by_cases ht : obj.value.objType = .set
          · obtain ⟨set, hset⟩ := sets.exists_wrap _ ht
            obtain ⟨set', hset'⟩ := sets.exists_wrap obj'.value (htype ▸ ht)
            have hsame : ∀ m, m ∈ set ↔ m ∈ set' := by
              have hvalue := hobj.same
              rw [hset, hset'] at hvalue
              exact hvalue
            have hsize := UnorderedSet.size_eq_of_mem_iff hsame
            by_cases hpos : 0 < count
            · have hle : (set.size : Int) ≤ count := by
                by_contra hlt
                exact hdraws ⟨hname, obj, set, count, rfl, hset, hcount, hpos, by omega⟩
              rw [after_sPopAction_of_le hargs hcount rng hset hle,
                after_sPopAction_of_le hargs hcount rng' hset' (hsize ▸ hle)]
              exact EntrySim.none
            · have hleft := hobj.left
              have hright := hobj.right
              rw [hset] at hleft
              rw [hset'] at hright
              rw [after_sPopAction_of_nonpos hargs hcount (by omega) rng hset hleft,
                after_sPopAction_of_nonpos hargs hcount (by omega) rng' hset' hright]
              exact Option.Rel.some hobj
          · rw [(sPopAction_typed cmd.args rng).after_of_ne ht,
              (sPopAction_typed cmd.args rng').after_of_ne (htype ▸ ht)]
            exact Option.Rel.some hobj

/-! ## Runs -/

namespace RedisServer

/-- The command is a `SPOP` that takes some members of its set, not all. -/
def DrawsSome (db : Dict) (step : Step) : Prop :=
  step.cmd.DrawsSome (db.live step.now (step.cmd.args.getD 0 []))

/-- What the command does to `key` comes out the same, with other draws too. -/
structure Determined (key : Bytes) (db : Dict) (step : Step) : Prop where
  deadline : key = step.cmd.args.getD 0 [] → ¬ SetsDeadline db step
  nan : key = step.cmd.args.getD 0 [] → ¬ StoresNaN db step
  half : key = step.cmd.args.getD 0 [] → ¬ HalfApplied (step.context db)
  draws : key = step.cmd.args.getD 0 [] → ¬ DrawsSome db step

/-- A `ZADD` that a score stops is not logged. -/
theorem not_floatError_of_logs {db : Dict} {step : Step} (h : logs db step = true) :
    ¬ FloatError db step := by
  rintro ⟨-, hreply⟩
  rw [logs, hreply, Bool.and_eq_true] at h
  exact absurd h.2 (by decide)

theorem Determined.effect_sim {key : Bytes} {db : Dict} {step : Step} {e' : Option RedisObject}
    (h : Determined key db step) (hlogs : logs db step = true) (hsim : EntrySim (db.get key) e')
    (m : Moment) : EntrySim (entryEffect step.cmd step.now step.rng key (db.get key))
      (entryEffect step.cmd m.now m.rng key e') := by
  have hlive : key = step.cmd.args.getD 0 [] →
      db.live step.now (step.cmd.args.getD 0 []) = db.get key := fun hkey => by
    rw [← hkey]
    exact hsim.permanent.1.live step.now
  by_cases hname : normalize step.cmd.name = ascii "SPOP"
  · have hact : writeActions.lookup (ascii "SPOP") =
      some fun args _ rng => sPopAction args rng := rfl
    have heffect : ∀ now rng e, entryEffect step.cmd now rng key e =
        if key = step.cmd.args.getD 0 [] then (sPopAction step.cmd.args rng).after e else e := by
      intro now rng e
      rw [entryEffect, hname, if_neg (by decide), hact]
    rw [heffect, heffect]
    by_cases hkey : key = step.cmd.args.getD 0 []
    · rw [if_pos hkey, if_pos hkey]
      have hdraws := h.draws hkey
      rw [DrawsSome, hlive hkey] at hdraws
      exact sPopAction_sim hname hsim hdraws step.rng m.rng
    · rw [if_neg hkey, if_neg hkey]
      exact hsim
  · refine entryEffect_sim hsim fun hkey => ?_
    have hdeadline := h.deadline hkey
    have hnan := h.nan hkey
    rw [SetsDeadline, hlive hkey] at hdeadline
    rw [StoresNaN, hlive hkey] at hnan
    refine ⟨hname, hdeadline, hnan, fun hstops => not_floatError_of_logs hlogs ?_⟩
    exact floatError_of_stopsAtScore (by rwa [hlive hkey])

theorem rebuilds_determined (moments : Nat → Moment) (key : Bytes) :
    Rebuilds moments key (Determined key) := by
  intro steps db db' i hP h
  exact replay_simulation moments (fun _ _ h => h.permanent) (fun _ _ hP => hP.half)
    (fun _ _ _ m hP hlogs h => hP.effect_sim hlogs h m) hP h

/-- **Random pops and the log**: whatever the draws of the run and those of the
replay, the replay rebuilds the key space if, for every key, since the last
command that overwrites it, no `SPOP` takes some members and leaves others, no
NaN is stored as a score and no `ZADD` is half done. -/
theorem replayLog_same_of_pops (moments : Nat → Moment) {steps : List Step}
    (hfeed : ∀ step ∈ steps, step.cmd.Decoded)
    (hdeadline : Along (fun db step => ¬ SetsDeadline db step) ∅ steps)
    (hlen : ((new {}).run steps).log.length < 2 ^ 62)
    (hsince : ∀ key, SinceOverwrite key (fun db step => key = step.cmd.args.getD 0 [] →
      ¬ DrawsSome db step ∧ ¬ StoresNaN db step ∧ ¬ HalfApplied (step.context db)) steps) :
    (replayLog moments ((new {}).run steps).log ∅).Same ((new {}).run steps).db := by
  intro key
  have hdb : ((new {}).run steps).db = runDb ∅ steps := run_db _ _
  rw [replayLog_run moments ∅ hfeed hlen, hdb]
  refine ((rebuilds_determined moments key).of_sinceOverwrite
    ((hsince key).imp hdeadline fun db step hkey hd => ?_) (Dict.get_empty key)).rel_same
  exact ⟨fun _ => hd, fun hk => (hkey hk).2.1, fun hk => (hkey hk).2.2, fun hk => (hkey hk).1⟩

/-- Words whose first draw is `n`. -/
def drawing (n : Nat) : Nat → Nat → Nat := fun _ _ => n

/-- A set of two, popped empty. -/
def popAllSteps : List Step :=
  [ ⟨⟨0, drawing 0⟩, ⟨ascii "SADD", [ascii "s", ascii "a", ascii "b"]⟩⟩,
    ⟨⟨0, drawing 0⟩, ⟨ascii "SPOP", [ascii "s", ascii "2"]⟩⟩ ]

theorem replayLog_same_of_pops_all :
    (replayLog (fun _ => ⟨0, drawing 1⟩) ((new {}).run popAllSteps).log ∅).Same
      ((new {}).run popAllSteps).db := by
  refine replayLog_same_of_pops _ (decoded_of_length (by decide +kernel))
    ⟨RespCommand.not_setsDeadline (by decide) _, RespCommand.not_setsDeadline (by decide) _, trivial⟩
    (by decide +kernel) fun key => .inl ⟨fun _ => ⟨fun h => absurd h.1 (by decide),
      fun h => absurd h.1 (by decide), fun h => absurd h.name (by decide)⟩,
      fun _ => ⟨?_, fun h => absurd h.1 (by decide), fun h => absurd h.name (by decide)⟩, trivial⟩
  exact @RespCommand.not_drawsSome_of_le _ _ 2 2 (by decide +kernel) (by decide +kernel) (by decide)

/-- The members of the set under a key. -/
def members (db : Dict) (key : Bytes) : List Bytes :=
  (((db.get key).bind fun obj => obj.value.asSet).map UnorderedSet.elems).getD []

theorem mem_members_of_same {db db' : Dict} (h : db.Same db') {key m : Bytes}
    (hm : m ∈ members db key) : m ∈ members db' key := by
  have hrel := h key
  rw [members] at hm ⊢
  cases hget : db.get key with
  | none => simp [hget] at hm
  | some obj =>
      rw [hget] at hrel hm
      cases hget' : db'.get key with
      | none => rw [hget'] at hrel; cases hrel
      | some obj' =>
          rw [hget'] at hrel
          cases hrel with
          | some hobj =>
              have hvalue := hobj.value
              cases hset : obj.value with
              | set set =>
                  cases hset' : obj'.value with
                  | set set' =>
                      rw [hset, hset'] at hvalue
                      simp only [Option.bind_some, hset, hset', ValueVariant.asSet,
                        Option.map_some, Option.getD_some] at hm ⊢
                      exact (hvalue m).mp hm
                  | _ => rw [hset, hset'] at hvalue; exact hvalue.elim
              | _ => simp [hset, ValueVariant.asSet] at hm

/-- One member of two popped. -/
def popOneSteps : List Step :=
  [ ⟨⟨0, drawing 0⟩, ⟨ascii "SADD", [ascii "s", ascii "a", ascii "b"]⟩⟩,
    ⟨⟨0, drawing 0⟩, ⟨ascii "SPOP", [ascii "s"]⟩⟩ ]

/-- The client got `b`, and a replay that draws otherwise has `b` again and
`a` no more. -/
theorem replayLog_pops :
    (∀ step ∈ popOneSteps, step.cmd.Decoded) ∧
      Along (fun db step => ¬ SetsDeadline db step) ∅ popOneSteps ∧
      ((new {}).run popOneSteps).log.length < 2 ^ 62 ∧
      (popOneSteps.drop 1).map (fun step => (response (runDb ∅ (popOneSteps.take 1)) step).1) =
        [RespCodec.bulkString (ascii "b")] ∧
      members ((new {}).run popOneSteps).db (ascii "s") = [ascii "a"] ∧
      members (replayLog (fun _ => ⟨0, drawing 1⟩) ((new {}).run popOneSteps).log ∅) (ascii "s") =
        [ascii "b"] ∧
      ¬ (replayLog (fun _ => ⟨0, drawing 1⟩) ((new {}).run popOneSteps).log ∅).Same
        ((new {}).run popOneSteps).db := by
  have hrun : members ((new {}).run popOneSteps).db (ascii "s") = [ascii "a"] := by
    decide +kernel
  have hreplay : members (replayLog (fun _ => ⟨0, drawing 1⟩)
      ((new {}).run popOneSteps).log ∅) (ascii "s") = [ascii "b"] := by decide +kernel
  refine ⟨decoded_of_length (by decide +kernel),
    ⟨RespCommand.not_setsDeadline (by decide) _, RespCommand.not_setsDeadline (by decide) _, trivial⟩,
    by decide +kernel, by decide +kernel, hrun, hreplay, fun hsame => ?_⟩
  have hb := @mem_members_of_same _ _ hsame (ascii "s") (ascii "b") (by rw [hreplay]; simp)
  rw [hrun] at hb
  exact absurd hb (by decide)

end RedisServer

end RedisLike
