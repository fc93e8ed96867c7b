import RedisLike.Command.Again
import RedisLike.Server.Replay
import RedisLike.Storage.RdbRoundTrip

/-!
# RedisLike.Server.Restart

A restart: the snapshot of `Stop`, and the whole log replayed on top of it.

A list gets every push twice.  An entry comes out right if it is not there at
the end, if some command overwrites it on the way, or if it is no list and every
command has met its own type (`restart_same`).
-/

namespace RedisLike

namespace RedisServer

/-! ## Steps that can be done again -/

/-- The `ZADD`s on `key` read numbers, and no NaN. -/
def CleanAt (key : Bytes) (db : Dict) (step : Step) : Prop :=
  key = step.cmd.args.getD 0 [] → ¬ StoresNaN db step ∧ ¬ FloatError db step

/-- A logged command on `key` meets its own type. -/
def MeetsTypeAt (key : Bytes) (db : Dict) (step : Step) : Prop :=
  logs db step = true → key = step.cmd.args.getD 0 [] →
    step.cmd.MeetsType (db.live step.now key)

/-- What the step does to `key` can be done again on top of a later entry. -/
structure Calm (key : Bytes) (db : Dict) (step : Step) : Prop where
  clean : Clean key db step
  deadline : ∀ e, ¬ step.cmd.SetsDeadline e
  meets : MeetsTypeAt key db step
  keeps : ¬ step.cmd.Overwrites key

section calm

variable {key : Bytes} {db : Dict} {step : Step}

theorem Calm.steady (h : Calm key db step) (hperm : Permanent (db.get key))
    (hlogs : logs db step = true) : step.cmd.Steady key (db.get key) where
  name := h.clean.name
  deadline := h.deadline
  nan hkey := (h.clean.repeatable hperm hkey).nan
  score hkey := (h.clean.repeatable hperm hkey).score
  meets hkey := hperm.live step.now ▸ h.meets hlogs hkey
  keeps := h.keeps

theorem Calm.permanent (h : Calm key db step) (hperm : Permanent (db.get key)) :
    Permanent ((response db step).2.get key) := by
  rw [get_response hperm h.clean.not_halfApplied]
  split
  · exact permanent_entryEffect hperm fun _ => h.deadline _
  · exact hperm

/-- The entry is a string. -/
def IsString (e : Option RedisObject) : Prop := ∃ obj, e = some obj ∧ obj.value.objType = .string

/-- Only an overwriting command takes a string away. -/
theorem Calm.isString (h : Calm key db step) (hperm : Permanent (db.get key))
    (hstring : IsString (db.get key)) : IsString ((response db step).2.get key) := by
  rw [get_response hperm h.clean.not_halfApplied]
  split
  swap
  · exact hstring
  next hlogs =>
  have hs := h.steady hperm hlogs
  obtain ⟨obj, hobj, htype⟩ := hstring
  rw [hobj] at hs ⊢
  cases effectOf step.cmd key with
  | idle heffect => exact ⟨obj, heffect _ _ _, htype⟩
  | del hname hkey heffect => exact absurd (.inl ⟨hname, hkey⟩) hs.keeps
  | expire hname hkey arity add heffect =>
      refine ⟨obj, ?_, htype⟩
      rw [heffect, after_expireAction, hs.expireArg_eq hkey hname]
  | set hname hkey heffect =>
      rw [heffect, after_setAction]
      split
      · exact ⟨obj, rfl, htype⟩
      · exact ⟨_, rfl, rfl⟩
  | typed t act _ hkey htyped hreplays heffect =>
      refine ⟨obj, ?_, htype⟩
      rw [heffect]
      refine (htyped _ _ _).after_of_ne ?_
      rintro rfl
      rw [htype] at hreplays
      exact hreplays

theorem isString_runDb {steps : List Step} (h : Along (Calm key) db steps)
    (hperm : Permanent (db.get key)) (hstring : IsString (db.get key)) :
    IsString ((runDb db steps).get key) := by
  induction steps generalizing db with
  | nil => exact hstring
  | cons step steps ih => exact ih h.2 (h.1.permanent hperm) (h.1.isString hperm hstring)

/-- An entry that is no string at the end never was one. -/
theorem along_not_isString {steps : List Step} (h : Along (Calm key) db steps)
    (hperm : Permanent (db.get key)) (hend : ¬ IsString ((runDb db steps).get key)) :
    Along (fun db step => Calm key db step ∧ ¬ IsString ((response db step).2.get key)) db steps := by
  induction steps generalizing db with
  | nil => trivial
  | cons step steps ih =>
      have hnext := h.1.permanent hperm
      refine ⟨⟨h.1, fun hs => hend ?_⟩, ih h.2 hnext hend⟩
      have hrun := isString_runDb h.2 hnext hs
      exact hrun

end calm

/-! ## One entry -/

section entry

variable {key : Bytes} {steps : List Step} {db' : Dict} {i : Nat}

theorem replay_again_string (moments : Nat → Moment) {obj' : RedisObject}
    (h : Along (Calm key) ∅ steps) (hend : EntrySim ((runDb ∅ steps).get key) (some obj'))
    (hdb' : db'.get key = some obj') (hstring : obj'.value.objType = .string) :
    EntrySim ((runDb ∅ steps).get key)
      (((loggedCommands ∅ steps).foldl (replayCommand moments) (i, db')).2.get key) := by
  have hperm' : Permanent (some obj') := hend.permanent.2
  have hstart : StringAgain obj' ((∅ : Dict).get key) (db'.get key) := by
    rw [Dict.get_empty, hdb']
    exact .inr ⟨permanent_none, rfl⟩
  have hagain := @replay_simulation (StringAgain obj') (Calm key) key moments
    (fun e e' h => by
      rcases h with h | ⟨hperm, rfl⟩
      · exact h.permanent
      · exact ⟨hperm, hperm'⟩)
    (fun db step hP => hP.clean.not_halfApplied)
    (fun db step e' m hP hlogs h => by
      have hperm : Permanent (db.get key) := by
        rcases h with h | ⟨hperm, -⟩
        · exact h.permanent.1
        · exact hperm
      exact h.step hstring (hP.steady hperm hlogs))
    steps ∅ db' i h hstart
  rcases hagain with hagain | ⟨-, heq⟩
  · exact hagain
  · rw [heq]
    exact hend

theorem replay_again_collection {α β : Type} {C : Collection α β} (hC : C.Replayable)
    (moments : Nat → Moment) (h : Along (Calm key) ∅ steps)
    (hend : EntrySim ((runDb ∅ steps).get key) (db'.get key)) {obj : RedisObject}
    (hobj : (runDb ∅ steps).get key = some obj) (htype : obj.value.objType = C.type)
    (hne : C.type ≠ .string) :
    EntrySim ((runDb ∅ steps).get key)
      (((loggedCommands ∅ steps).foldl (replayCommand moments) (i, db')).2.get key) := by
  obtain ⟨cells, hrun, hreplay⟩ := C.exists_holds hend fun o ho => by
    rw [hobj] at ho
    cases ho
    exact htype
  have hstart : CollectionAgain C cells ((∅ : Dict).get key) (db'.get key) := by
    rw [Dict.get_empty]
    refine .inr ⟨[], hreplay, ?_, permanent_none, .inl .missing⟩
    rw [hobj] at hend
    intro hnone
    rw [hnone] at hend
    cases hend
  have hnot : ¬ IsString ((runDb ∅ steps).get key) := by
    rintro ⟨o, ho, hstring⟩
    rw [hobj] at ho
    cases ho
    exact hne (htype.symm.trans hstring)
  have hagain := @replay_simulation (CollectionAgain C cells) _ key moments
    (fun e e' h => by
      rcases h with h | ⟨ws, he', -, hperm, -⟩
      · exact h.permanent
      · exact ⟨hperm, he'.permanent⟩)
    (fun db step hP => hP.1.clean.not_halfApplied)
    (fun db step e' m hP hlogs h => by
      have hperm : Permanent (db.get key) := by
        rcases h with h | ⟨ws, -, -, hperm, -⟩
        · exact h.permanent.1
        · exact hperm
      refine h.step hC (hP.1.steady hperm hlogs) fun o ho hstring => hP.2 ⟨o, ?_, hstring⟩
      rw [get_response hperm hP.1.clean.not_halfApplied, if_pos hlogs]
      exact ho)
    steps ∅ db' i (along_not_isString h (by rw [Dict.get_empty]; exact permanent_none) hnot) hstart
  exact hagain.sim hrun

/-- **An entry on top of itself**: what is no list comes out of a calm run, and
its replay on the last entry of the run, as it was. -/
theorem replay_again (moments : Nat → Moment) (h : Along (Calm key) ∅ steps)
    (hend : EntrySim ((runDb ∅ steps).get key) (db'.get key))
    (hlist : ∀ obj, (runDb ∅ steps).get key = some obj → obj.value.objType ≠ .list) :
    EntrySim ((runDb ∅ steps).get key)
      (((loggedCommands ∅ steps).foldl (replayCommand moments) (i, db')).2.get key) := by
  cases hobj : (runDb ∅ steps).get key with
  | none =>
      rw [hobj] at hend
      have hdb' : db'.get key = none := by
        generalize db'.get key = e at hend
        cases hend
        rfl
      rw [← hobj]
      refine rebuilds_clean moments key _ _ _ _ (h.imp fun _ _ hP => hP.clean) ?_
      rw [Dict.get_empty, hdb']
      exact EntrySim.none
  | some obj =>
      rw [← hobj]
      cases htype : obj.value.objType with
      | list => exact absurd htype (hlist obj hobj)
      | hash => exact replay_again_collection hashes_replayable moments h hend hobj htype (by decide)
      | set => exact replay_again_collection sets_replayable moments h hend hobj htype (by decide)
      | zset => exact replay_again_collection sortedSets_replayable moments h hend hobj htype (by decide)
      | string =>
          rw [hobj] at hend
          cases hdb' : db'.get key with
          | none =>
              rw [hdb'] at hend
              cases hend
          | some obj' =>
              rw [hdb'] at hend
              have htype' : obj'.value.objType = .string := hend.objType_eq (fun o ho => by
                cases ho
                exact htype) obj' rfl
              exact replay_again_string moments h (hobj ▸ hend) hdb' htype'

end entry

/-! ## The snapshot -/

theorem run_dump (server : RedisServer) (steps : List Step) :
    (server.run steps).dump = server.dump := by
  induction steps generalizing server with
  | nil => rfl
  | cons step steps ih =>
      rw [run, List.foldl_cons, ← run, ih, process]
      split <;> rfl

/-- An entry of the snapshot: it is missing, or as it was at `Stop`. -/
theorem load_stop (rng : Nat → Nat → Nat → Nat) {server : RedisServer} (hdump : server.dump = none)
    (hfits : RdbSaver.FitsRdb server.db) (key : Bytes) :
    (RdbSaver.load rng server.stop.dump ∅).2.get key = none ∨
      ∃ obj obj', server.db.get key = some obj ∧
        (RdbSaver.load rng server.stop.dump ∅).2.get key = some obj' ∧
        obj'.Same (RdbSaver.truncated obj) ∧ obj'.WellFormed := by
  unfold stop
  rw [hdump]
  by_cases hsize : UnorderedMap.size server.db > 0
  · rw [if_pos hsize]
    obtain ⟨-, hmem, hother⟩ := RdbSaver.load_save rng hfits
    by_cases hkey : key ∈ (server.db.pairs.takeWhile RdbSaver.Plain).map Prod.fst
    · obtain ⟨kv, hkv, rfl⟩ := List.mem_map.mp hkey
      obtain ⟨obj', hobj', hsame, hwf⟩ := hmem kv hkv
      have hpair : kv ∈ server.db.pairs := (List.takeWhile_sublist _).subset hkv
      exact .inr ⟨kv.2, obj', UnorderedMap.mem_pairs.mp hpair, hobj', hsame, hwf⟩
    · exact .inl (hother key hkey)
  · rw [if_neg hsize]
    exact .inl (Dict.get_empty key)

/-- An entry of the snapshot against the entry at `Stop`. -/
theorem sim_load_stop (rng : Nat → Nat → Nat → Nat) {server : RedisServer}
    (hdump : server.dump = none) (hfits : RdbSaver.FitsRdb server.db) {key : Bytes}
    (hsim : EntrySim (server.db.get key) (server.db.get key)) :
    (RdbSaver.load rng server.stop.dump ∅).2.get key = none ∨
      EntrySim (server.db.get key) ((RdbSaver.load rng server.stop.dump ∅).2.get key) := by
  rcases load_stop rng hdump hfits key with h | ⟨obj, obj', hobj, hobj', hsame, hwf⟩
  · exact .inl h
  · rw [hobj] at hsim ⊢
    rw [hobj']
    refine .inr ?_
    cases hsim with
    | some h =>
        refine Option.Rel.some ⟨hsame.value.symm, h.left, h.left.of_same hsame.value hwf,
          h.permanent, ?_⟩
        rw [hsame.expireAt, RdbSaver.truncated, RedisObject.expireAt_withExpire, h.permanent]
        rfl

/-! ## Whole key spaces -/

/-- The entry of `key` survives a restart: the history since some command has
overwritten it is clean; or the whole history is, and the key is not there at the
end, or it is no list and every logged command on it has met its own type. -/
def Restartable (key : Bytes) (steps : List Step) : Prop :=
  (∃ pre step post, steps = pre ++ step :: post ∧ step.cmd.Overwrites key ∧
      Along (CleanAt key) (runDb ∅ (pre ++ [step])) post) ∨
    Along (CleanAt key) ∅ steps ∧
      ((runDb ∅ steps).get key = none ∨
        (∀ obj, (runDb ∅ steps).get key = some obj → obj.value.objType ≠ .list) ∧
          Along (MeetsTypeAt key) ∅ steps)

section restart

variable {key : Bytes} {steps : List Step}

/-- The conditions of the theorems about runs without `SPOP` and deadlines. -/
theorem clean_of_cleanAt {db : Dict} (hspop : ∀ step ∈ steps, normalize step.cmd.name ≠ ascii "SPOP")
    (hdeadline : ∀ step ∈ steps, ∀ e, ¬ step.cmd.SetsDeadline e)
    (h : Along (CleanAt key) db steps) : Along (Clean key) db steps := by
  have hsteps := @along_of_forall (fun _ step => normalize step.cmd.name ≠ ascii "SPOP" ∧
    ∀ e, ¬ step.cmd.SetsDeadline e) steps (fun step hstep _ => ⟨hspop step hstep,
      hdeadline step hstep⟩) db
  exact (hsteps.and h).imp fun db step hP => ⟨hP.1.1, fun _ => hP.1.2 _, fun hkey => (hP.2 hkey).1,
    fun hkey => (hP.2 hkey).2⟩

theorem Restartable.sinceOverwrite (h : Restartable key steps)
    (hspop : ∀ step ∈ steps, normalize step.cmd.name ≠ ascii "SPOP")
    (hdeadline : ∀ step ∈ steps, ∀ e, ¬ step.cmd.SetsDeadline e) :
    SinceOverwrite key (Clean key) steps := by
  rcases h with ⟨pre, step, post, rfl, hover, hpost⟩ | ⟨hclean, -⟩
  · have hsub : ∀ s ∈ post, s ∈ pre ++ step :: post := fun s hs => by simp [hs]
    exact .inr ⟨pre, step, post, rfl, hover, clean_of_cleanAt (fun s hs => hspop s (hsub s hs))
      (fun s hs => hdeadline s (hsub s hs)) hpost⟩
  · exact .inl (clean_of_cleanAt hspop hdeadline hclean)

/-- **One entry through a restart**, from what the snapshot has of it. -/
theorem Restartable.replay_sim (h : Restartable key steps) (moments : Nat → Moment) {db' : Dict}
    {i : Nat} (hspop : ∀ step ∈ steps, normalize step.cmd.name ≠ ascii "SPOP")
    (hdeadline : ∀ step ∈ steps, ∀ e, ¬ step.cmd.SetsDeadline e)
    (hdb' : db'.get key = none ∨ EntrySim ((runDb ∅ steps).get key) (db'.get key)) :
    EntrySim ((runDb ∅ steps).get key)
      (((loggedCommands ∅ steps).foldl (replayCommand moments) (i, db')).2.get key) := by
  have hsince := h.sinceOverwrite hspop hdeadline
  rcases hdb' with hnone | hend
  · exact (rebuilds_clean moments key).of_sinceOverwrite hsince hnone
  rcases hsince with hclean | ⟨pre, step, post, rfl, hover, hpost⟩
  swap
  · exact (rebuilds_clean moments key).of_overwrites hover hpost
  by_cases hover : ∃ step ∈ steps, step.cmd.Overwrites key
  · obtain ⟨step, hstep, hover⟩ := hover
    obtain ⟨pre, post, rfl⟩ := List.append_of_mem hstep
    have hsplit : pre ++ step :: post = (pre ++ [step]) ++ post := by simp
    rw [hsplit, along_append] at hclean
    exact (rebuilds_clean moments key).of_overwrites hover hclean.2
  rcases h with ⟨pre, step, post, rfl, hstep, -⟩ | ⟨-, hnone | ⟨hlist, hmeets⟩⟩
  · exact absurd ⟨step, by simp, hstep⟩ hover
  · refine (rebuilds_clean moments key).of_sinceOverwrite (.inl hclean) ?_
    rw [hnone] at hend
    generalize db'.get key = e at hend
    cases hend
    rfl
  · have hsteps := @along_of_forall (fun _ step => (∀ e, ¬ step.cmd.SetsDeadline e) ∧
      ¬ step.cmd.Overwrites key) steps (fun step hstep _ => ⟨hdeadline step hstep,
        fun hs => hover ⟨step, hstep, hs⟩⟩) ∅
    exact replay_again moments (((hclean.and hmeets).and hsteps).imp fun db step hP =>
      ⟨hP.1.1, hP.2.1, hP.1.2, hP.2.2⟩) hend hlist

end restart

/-- **A restart preserves the key space**, if every entry of it survives: the
snapshot that `Stop` leaves, with the whole log replayed on top, is the key space
at `Stop`. -/
theorem restart_same (rng : Nat → Nat → Nat → Nat) (moments : Nat → Moment) {steps : List Step}
    (hfeed : ∀ step ∈ steps, step.cmd.Decoded)
    (hspop : ∀ step ∈ steps, normalize step.cmd.name ≠ ascii "SPOP")
    (hdeadline : ∀ step ∈ steps, ∀ e, ¬ step.cmd.SetsDeadline e)
    (hlen : ((new {}).run steps).log.length < 2 ^ 62)
    (hkeys : ∀ key ∈ ((new {}).run steps).db.keys, key.length < 2 ^ 32)
    (hsmall : ∀ key obj, ((new {}).run steps).db.get key = some obj → RdbSaver.Small obj.value)
    (hsteps : ∀ key, Restartable key steps) :
    ((new ((new {}).run steps).stop).loadPersistedData rng moments).db.Same
      ((new {}).run steps).db := by
  have hdb : ((new {}).run steps).db = runDb ∅ steps := run_db _ _
  have hdump : ((new {}).run steps).dump = none := run_dump _ _
  have hgood : ∀ key, EntrySim ((runDb ∅ steps).get key) ((runDb ∅ steps).get key) := by
    intro key
    have hsim := @Rebuilds.of_sinceOverwrite moments key _ (rebuilds_clean moments key) steps ∅ 0
      ((hsteps key).sinceOverwrite hspop hdeadline) (Dict.get_empty key)
    exact hsim.left_refl
  have hfits : RdbSaver.FitsRdb ((new {}).run steps).db :=
    ⟨hkeys, fun key obj hobj => ⟨hsmall key obj hobj,
      ((hgood key).good obj (hdb ▸ hobj)).wellFormed⟩⟩
  intro key
  have hstart := @sim_load_stop rng _ hdump hfits key (hdb.symm ▸ hgood key)
  have hload : ((new ((new {}).run steps).stop).loadPersistedData rng moments).db =
      replayLog moments ((new {}).run steps).log
        (RdbSaver.load rng ((new {}).run steps).stop.dump ∅).2 := rfl
  rw [hload, replayLog_run moments _ hfeed hlen]
  rw [hdb] at hstart ⊢
  exact ((hsteps key).replay_sim moments hspop hdeadline hstart).rel_same

/-- A hash with one field. -/
def hashSteps : List Step :=
  [⟨⟨0, flatWords⟩, ⟨ascii "HSET", [ascii "h", ascii "f", ascii "v"]⟩⟩]

/-- The object that `hashSteps` stores. -/
def hashObject : RedisObject :=
  RedisObject.createHash.withValue
    (.hash ((∅ : RedisHash).insert (ascii "f") (ascii "v")))

theorem run_hashSteps : ((new {}).run hashSteps).db = (∅ : Dict).set (ascii "h") hashObject := rfl

theorem get_hashSteps (key : Bytes) : (runDb ∅ hashSteps).get key =
    if key = ascii "h" then some hashObject else none := by
  have hdb : runDb ∅ hashSteps = (∅ : Dict).set (ascii "h") hashObject :=
    (run_db _ _).symm.trans run_hashSteps
  rw [hdb, Dict.get_set, Dict.get_empty]

theorem restart_same_hash :
    ((new ((new {}).run hashSteps).stop).loadPersistedData (fun _ => flatWords)
      (fun _ => ⟨0, flatWords⟩)).db.Same ((new {}).run hashSteps).db :=
  restart_same _ _ (decoded_of_length (by decide +kernel)) (by decide)
    (fun step hstep => by
      rw [List.mem_singleton.mp hstep]
      exact RespCommand.not_setsDeadline (by decide))
    (by decide +kernel) (by decide +kernel)
    (fun key obj hobj => by
      rw [run_hashSteps, Dict.get_set, Dict.get_empty] at hobj
      split at hobj
      · cases hobj
        exact ⟨by decide, by decide⟩
      · contradiction)
    (fun key => by
      refine .inr ⟨⟨fun _ => ⟨fun h => absurd h.1 (by decide), fun h => absurd h.1 (by decide)⟩,
        trivial⟩, ?_⟩
      by_cases hkey : key = ascii "h"
      · refine .inr ⟨fun obj hobj => ?_, fun _ _ => ⟨fun t ht obj hobj => ?_, fun h => ?_⟩, trivial⟩
        · rw [get_hashSteps, if_pos hkey] at hobj
          cases hobj
          decide
        · cases hobj
        · exact absurd h.1 (by decide)
      · exact .inl (by rw [get_hashSteps, if_neg hkey]))

/-- A list with one element. -/
def pushSteps : List Step := [⟨⟨0, flatWords⟩, ⟨ascii "RPUSH", [ascii "k", ascii "a"]⟩⟩]

/-- The element is in the snapshot, and the log pushes it once more. -/
theorem restart_push :
    (∀ step ∈ pushSteps, step.cmd.Decoded) ∧
      (∀ step ∈ pushSteps, normalize step.cmd.name ≠ ascii "SPOP") ∧
      (∀ step ∈ pushSteps, ∀ e, ¬ step.cmd.SetsDeadline e) ∧
      ((((new {}).run pushSteps).db.get (ascii "k")).bind fun obj => obj.value.asList) =
        some [ascii "a"] ∧
      ((((new ((new {}).run pushSteps).stop).loadPersistedData (fun _ => flatWords)
        (fun _ => ⟨0, flatWords⟩)).db.get (ascii "k")).bind fun obj => obj.value.asList) =
        some [ascii "a", ascii "a"] ∧
      ¬ ((new ((new {}).run pushSteps).stop).loadPersistedData (fun _ => flatWords)
        (fun _ => ⟨0, flatWords⟩)).db.Same ((new {}).run pushSteps).db := by
  have hrun : ((((new {}).run pushSteps).db.get (ascii "k")).bind fun obj => obj.value.asList) =
      some [ascii "a"] := by decide +kernel
  have hrestart : ((((new ((new {}).run pushSteps).stop).loadPersistedData (fun _ => flatWords)
      (fun _ => ⟨0, flatWords⟩)).db.get (ascii "k")).bind fun obj => obj.value.asList) =
      some [ascii "a", ascii "a"] := by decide +kernel
  refine ⟨decoded_of_length (by decide +kernel), by decide, ?_, hrun, hrestart, fun hsame => ?_⟩
  · intro step hstep
    rw [List.mem_singleton.mp hstep]
    exact RespCommand.not_setsDeadline (by decide)
  · have hlist := rel_asList_eq (hsame (ascii "k"))
    exact absurd (hrestart.symm.trans (hlist.trans hrun)) (by decide)

end RedisServer

end RedisLike
