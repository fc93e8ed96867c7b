import RedisLike.Server.Log

/-!
# RedisLike.Server.Scores

The members and the scores of a sorted set.

`ZRANGE`, `ZREVRANGE` and `SaveZSet` read the score of every member they list
without a check.  The chain of the skip list and its score index stay in step
along every run of `ZADD` and `ZREM` that reads no NaN (`run_scored`).  With a
NaN in the list the search for a node stops too early: `Delete` takes the score
out of the index and leaves the node.
-/

namespace RedisLike

open LastWriter

/-- Every range lists each member once, and only members with a score. -/
structure SkipList.Scored (sl : SkipList) : Prop where
  once : ∀ start stop, (sl.rangeByRank start stop).Nodup
  scored : ∀ start stop, ∀ m ∈ sl.rangeByRank start stop, (sl.getScore m).isSome

namespace SkipList

theorem Valid.scored {sl : SkipList} (h : sl.Valid) : sl.Scored where
  once start stop := h.nodup_members.sublist (sl.rangeByRank_sublist start stop)
  scored start stop m hm := by
    obtain ⟨p, hp, rfl⟩ := List.mem_map.mp ((sl.rangeByRank_sublist start stop).subset hm)
    rw [h.mem_items.mp hp]
    rfl

/-- No range lists a member without a score. -/
theorem Valid.notMem_rangeByRank {sl : SkipList} (h : sl.Valid) {m : Bytes}
    (hm : sl.getScore m = none) (start stop : Int) : m ∉ sl.rangeByRank start stop := by
  intro hmem
  have hsome := h.scored.scored start stop m hmem
  rw [hm] at hsome
  cases hsome

end SkipList

/-- A `ZREM` takes the scores of its members out. -/
theorem getScore_zRemLoop_of_mem {args : List Bytes} {sl : SkipList} {m : Bytes} (hv : sl.Valid)
    (hm : m ∈ args) (removed : Nat) : (zRemLoop args sl removed).2.getScore m = none := by
  rw [(zRemLoop_spec args removed hv).2]
  refine storeAll_clear_of_mem _ (fun _ => eq_none_of_mem_clears) ?_
  rw [clears, List.map_map]
  simpa using hm

/-- The command is a `ZADD` that reads a NaN. -/
def RespCommand.ReadsNaN (cmd : RespCommand) : Prop :=
  normalize cmd.name = ascii "ZADD" ∧ 3 ≤ cmd.args.length ∧ cmd.args.length % 2 = 1 ∧
    ¬ NoNaN (scoreWrites (cmd.args.drop 1))

/-- The command is a `ZADD` or a `ZREM` on the key. -/
def RespCommand.WritesScores (cmd : RespCommand) (key : Bytes) : Prop :=
  (normalize cmd.name = ascii "ZADD" ∨ normalize cmd.name = ascii "ZREM") ∧
    cmd.args.getD 0 [] = key

/-! ## One command -/

/-- The entry is a valid sorted set, or missing; it has no deadline. -/
def ValidZSet (e : Option RedisObject) : Prop :=
  ∀ obj, e = some obj → obj.expireAt = none ∧ ∃ sl, obj.value = .zset sl ∧ sl.Valid

theorem validZSet_none : ValidZSet none := by
  intro obj h
  cases h

theorem validZSet_some {obj : RedisObject} {sl : SkipList} (he : obj.expireAt = none)
    (hv : sl.Valid) : ValidZSet (some (obj.withValue (.zset sl))) := by
  rintro _ ⟨⟩
  exact ⟨he, sl, rfl, hv⟩

theorem ValidZSet.permanent {e : Option RedisObject} (h : ValidZSet e) : Permanent e :=
  fun obj hobj => (h obj hobj).1

theorem zAddAction_validZSet {args : List Bytes} (rng : Nat → Nat → Nat)
    (hnan : 3 ≤ args.length → args.length % 2 = 1 → NoNaN (scoreWrites (args.drop 1)))
    {e : Option RedisObject} (h : ValidZSet e) : ValidZSet ((zAddAction args rng).after e) := by
  unfold zAddAction
  split
  · exact h
  · next harity =>
    have hloop := fun {sl : SkipList} (hv : sl.Valid) =>
      (zAddLoop_spec rng (args.drop 1) 0 0 hv (hnan (by omega) (by omega))).1
    cases e with
    | none => exact validZSet_some rfl (hloop SkipList.valid_new)
    | some obj =>
        obtain ⟨he, sl, hsl, hv⟩ := h obj rfl
        simp only [KeyAction.create, KeyAction.after, Option.getD_some, hsl, ValueVariant.asZSet]
        exact validZSet_some he (hloop hv)

theorem zRemAction_validZSet (args : List Bytes) {e : Option RedisObject} (h : ValidZSet e) :
    ValidZSet ((zRemAction args).after e) := by
  unfold zRemAction
  split
  · exact h
  · cases e with
    | none => exact validZSet_none
    | some obj =>
        obtain ⟨he, sl, hsl, hv⟩ := h obj rfl
        simp only [KeyAction.remove, KeyAction.after, hsl, ValueVariant.asZSet]
        split
        · exact validZSet_none
        · exact validZSet_some he (zRemLoop_spec (args.drop 1) 0 hv).1

theorem validZSet_entryEffect {cmd : RespCommand} {key : Bytes} (hcmd : cmd.WritesScores key)
    (hnan : ¬ cmd.ReadsNaN) (now : TimePoint) (rng : Nat → Nat → Nat) {e : Option RedisObject}
    (h : ValidZSet e) : ValidZSet (entryEffect cmd now rng key e) := by
  obtain ⟨hname, hkey⟩ := hcmd
  unfold entryEffect
  rcases hname with hname | hname
  · have hact : writeActions.lookup (ascii "ZADD") = some fun args _ rng => zAddAction args rng := rfl
    rw [hname, if_neg (by decide), hact]
    simp only [hkey, if_true]
    exact zAddAction_validZSet rng
      (fun h3 hodd => not_not.mp fun hn => hnan ⟨hname, h3, hodd, hn⟩) h
  · have hact : writeActions.lookup (ascii "ZREM") = some fun args _ _ => zRemAction args := rfl
    rw [hname, if_neg (by decide), hact]
    simp only [hkey, if_true]
    exact zRemAction_validZSet cmd.args h

/-! ## Runs -/

namespace RedisServer

theorem response_get {db : Dict} {step : Step} {key : Bytes} (h : Permanent (db.get key)) :
    (response db step).2.get key =
      entryEffect step.cmd step.now step.rng key (db.get key) := by
  rw [response_eq]
  exact get_execute h

theorem validZSet_runDb {key : Bytes} {steps : List Step} {db : Dict}
    (hsteps : ∀ step ∈ steps, step.cmd.WritesScores key)
    (hnan : ∀ step ∈ steps, ¬ step.cmd.ReadsNaN) (h : ValidZSet (db.get key)) :
    ValidZSet ((runDb db steps).get key) := by
  induction steps generalizing db with
  | nil => exact h
  | cons step steps ih =>
      rw [List.forall_mem_cons] at hsteps hnan
      refine ih hsteps.2 hnan.2 ?_
      rw [response_get h.permanent]
      exact validZSet_entryEffect hsteps.1 hnan.1 step.now step.rng h

/-- **Every listed member has a score**, and a `ZREM` of a member with a score
takes it out of every range: in each state of a run of `ZADD` and `ZREM` on the
key, as long as no score is a NaN. -/
theorem run_scored {key : Bytes} {db : Dict} (hdb : db.get key = none) {steps : List Step}
    (hsteps : ∀ step ∈ steps, step.cmd.WritesScores key)
    (hnan : ∀ step ∈ steps, ¬ step.cmd.ReadsNaN) {obj : RedisObject}
    (hobj : (runDb db steps).get key = some obj) :
    ∃ sl, obj.value = .zset sl ∧ sl.Scored ∧ ∀ step : Step,
      normalize step.cmd.name = ascii "ZREM" → step.cmd.args.getD 0 [] = key →
        ∀ m ∈ step.cmd.args.drop 1, (sl.getScore m).isSome → ∀ obj' sl',
          (response (runDb db steps) step).2.get key = some obj' → obj'.value = .zset sl' →
            ∀ start stop, m ∉ sl'.rangeByRank start stop := by
  have hvalid : ValidZSet ((runDb db steps).get key) :=
    validZSet_runDb hsteps hnan (by rw [hdb]; exact validZSet_none)
  obtain ⟨he, sl, hsl, hv⟩ := hvalid obj hobj
  refine ⟨sl, hsl, hv.scored, fun step hname hkey m hm hscore obj' sl' hobj' hsl' => ?_⟩
  rw [response_get hvalid.permanent, hobj, entryEffect, hname, if_neg (by decide)] at hobj'
  have hact : writeActions.lookup (ascii "ZREM") = some fun args _ _ => zRemAction args := rfl
  have harity : ¬ step.cmd.args.length < 2 := fun hlen => by
    have hnil : step.cmd.args.drop 1 = [] := List.drop_eq_nil_iff.mpr (by omega)
    rw [hnil] at hm
    cases hm
  simp only [hact, hkey, if_true, zRemAction, if_neg harity, KeyAction.remove, KeyAction.after,
    hsl, ValueVariant.asZSet] at hobj'
  split at hobj'
  · contradiction
  · cases hobj'
    cases hsl'
    exact (zRemLoop_spec _ 0 hv).1.notMem_rangeByRank (getScore_zRemLoop_of_mem hv hm 0)

/-- Three members, and one of them removed. -/
def scoreSteps : List Step :=
  [ ⟨⟨0, fun _ _ => 1⟩, ⟨ascii "ZADD",
      [ascii "k", ascii "1", ascii "b", ascii "inf", ascii "c", ascii "1", ascii "a"]⟩⟩,
    ⟨⟨0, fun _ _ => 1⟩, ⟨ascii "ZREM", [ascii "k", ascii "c"]⟩⟩ ]

theorem writesScores_scoreSteps : ∀ step ∈ scoreSteps, step.cmd.WritesScores (ascii "k") :=
  List.forall_mem_cons.mpr ⟨⟨.inl rfl, rfl⟩, List.forall_mem_singleton.mpr ⟨.inr rfl, rfl⟩⟩

theorem not_readsNaN_scoreSteps : ∀ step ∈ scoreSteps, ¬ step.cmd.ReadsNaN := by
  have hscores : ∀ w ∈ scoreWrites [ascii "1", ascii "b", ascii "inf", ascii "c", ascii "1",
      ascii "a"], w.2.map Double.isNaN = some false := by decide +kernel
  refine List.forall_mem_cons.mpr ⟨fun h => h.2.2.2 fun w hw s hs => ?_,
    List.forall_mem_singleton.mpr fun h => absurd h.1 (by decide)⟩
  have hfalse := hscores w hw
  rw [hs] at hfalse
  exact Option.some.inj hfalse

theorem run_scored_inf : ∃ obj sl, (runDb ∅ scoreSteps).get (ascii "k") = some obj ∧
    obj.value = .zset sl ∧ sl.Scored := by
  obtain ⟨sl, hsl, hscored, -⟩ := @run_scored (ascii "k") ∅ (Dict.get_empty _) scoreSteps
    writesScores_scoreSteps not_readsNaN_scoreSteps _ rfl
  exact ⟨_, sl, rfl, hsl, hscored⟩

/-- Three members, one with a NaN as its score. -/
def lostSteps : List Step :=
  [ ⟨⟨0, fun _ _ => 1⟩, ⟨ascii "ZADD",
      [ascii "k", ascii "1", ascii "b", ascii "2", ascii "c", ascii "nan", ascii "a"]⟩⟩,
    ⟨⟨0, fun _ _ => 1⟩, ⟨ascii "ZREM", [ascii "k", ascii "c"]⟩⟩ ]

/-- `c` is listed still, and its score is gone. -/
theorem run_unscored : (∀ step ∈ lostSteps, step.cmd.WritesScores (ascii "k")) ∧
    ∃ obj sl, (runDb ∅ lostSteps).get (ascii "k") = some obj ∧ obj.value = .zset sl ∧
      ascii "c" ∈ sl.rangeByRank 0 (sl.size - 1) ∧ sl.getScore (ascii "c") = none := by
  refine ⟨List.forall_mem_cons.mpr
    ⟨⟨.inl rfl, rfl⟩, List.forall_mem_singleton.mpr ⟨.inr rfl, rfl⟩⟩, ?_⟩
  have hstate : (((runDb ∅ lostSteps).get (ascii "k")).bind fun obj => obj.value.asZSet).map
      (fun sl => (decide (ascii "c" ∈ sl.rangeByRank 0 (sl.size - 1)),
        (sl.getScore (ascii "c")).isNone)) = some (true, true) := by decide +kernel
  obtain ⟨sl, hsl, hpair⟩ := Option.map_eq_some_iff.mp hstate
  obtain ⟨obj, hobj, hvalue⟩ := Option.bind_eq_some_iff.mp hsl
  simp only [Prod.mk.injEq, decide_eq_true_eq, Option.isNone_iff_eq_none] at hpair
  exact ⟨obj, sl, hobj, asZSet_eq_some.mp hvalue, hpair.1, hpair.2⟩

end RedisServer

end RedisLike
