import RedisLike.Command.Congruence

/-!
# RedisLike.Command.Again

Commands that are run a second time, on top of what they have left.

A restart replays the log on the snapshot of the same run.  The entry of the
replay starts as the last one of the run.  A string stays what it is until the
two agree.  In a collection every cell gets the writes of the run again, and
keeps what the last of them stored (`storeAll_storeAll`), as long as no command
is refused in the run that the replay accepts.
-/

namespace RedisLike

open LastWriter

/-- The command finds no key of another type, and a `SET` is not refused for
want of the key. -/
def RespCommand.MeetsType (cmd : RespCommand) (e : Option RedisObject) : Prop :=
  (∀ t, commandTypes.lookup (normalize cmd.name) = some t →
      ∀ obj, e = some obj → obj.value.objType = t) ∧
    ¬ (normalize cmd.name = ascii "SET" ∧ e = none ∧
      setStored cmd.args false = none ∧ setStored cmd.args true ≠ none)

/-- What the command does to the entry `e` of `key` can be done again on top of
a later entry. -/
structure RespCommand.Steady (cmd : RespCommand) (key : Bytes) (e : Option RedisObject) : Prop where
  name : normalize cmd.name ≠ ascii "SPOP"
  deadline : ∀ e, ¬ cmd.SetsDeadline e
  nan : key = cmd.args.getD 0 [] → ¬ cmd.StoresNaN e
  score : key = cmd.args.getD 0 [] → ¬ cmd.StopsAtScore e
  meets : key = cmd.args.getD 0 [] → cmd.MeetsType e
  keeps : ¬ cmd.Overwrites key

theorem RespCommand.Steady.repeatable {cmd : RespCommand} {key : Bytes} {e : Option RedisObject}
    (h : cmd.Steady key e) (hkey : key = cmd.args.getD 0 []) : cmd.Repeatable e :=
  ⟨h.name, h.deadline e, h.nan hkey, h.score hkey⟩

/-- A steady `EXPIRE` does nothing to any entry. -/
theorem RespCommand.Steady.expireArg_eq {cmd : RespCommand} {key : Bytes} {e : Option RedisObject}
    (h : cmd.Steady key e) (hkey : key = cmd.args.getD 0 [])
    (hname : normalize cmd.name = ascii "EXPIRE" ∨ normalize cmd.name = ascii "PEXPIRE") :
    expireArg cmd.args = none := by
  by_contra hne
  obtain ⟨n, harg⟩ := Option.ne_none_iff_exists'.mp hne
  by_cases hn : n > 0
  · exact h.deadline (some RedisObject.createHash) (.inr ⟨hname, Option.some_ne_none _, n, harg, hn⟩)
  · exact h.keeps (.inr ⟨hkey, .inr ⟨hname, n, harg, hn⟩⟩)

theorem setStored_inj {args : List Bytes} {present present' : Bool} {o o' : SetOptions}
    (h : setStored args present = some o) (h' : setStored args present' = some o') : o = o' := by
  unfold setStored at h h'
  split at h
  · contradiction
  · next hlen =>
    rw [if_neg hlen] at h'
    cases hopt : setOptions (args.drop 2) {} with
    | error reply => simp [hopt] at h
    | ok opts =>
        simp only [hopt] at h h'
        split at h
        · contradiction
        · split at h'
          · contradiction
          · exact Option.some.inj (h.symm.trans h')

section again

variable {cmd : RespCommand} {key : Bytes} {e e' : Option RedisObject} {now now' : TimePoint}
  {rng rng' : Nat → Nat → Nat}

theorem RespCommand.Steady.permanent (h : cmd.Steady key e) (he : Permanent e) :
    Permanent (entryEffect cmd now rng key e) := permanent_entryEffect he fun _ => h.deadline e

/-! ## Strings -/

/-- The run and the replay agree, or the replay still has the string it started
with. -/
def StringAgain (obj₀ : RedisObject) (e e' : Option RedisObject) : Prop :=
  EntrySim e e' ∨ Permanent e ∧ e' = some obj₀

theorem StringAgain.step {obj₀ : RedisObject} (hstring : obj₀.value.objType = .string)
    (h : StringAgain obj₀ e e') (hs : cmd.Steady key e) :
    StringAgain obj₀ (entryEffect cmd now rng key e) (entryEffect cmd now' rng' key e') := by
  rcases h with h | ⟨hperm, rfl⟩
  · exact .inl (entryEffect_sim h hs.repeatable)
  have hperm' : Permanent (entryEffect cmd now rng key e) := hs.permanent hperm
  have hsame : entryEffect cmd now' rng' key (some obj₀) = some obj₀ →
      StringAgain obj₀ (entryEffect cmd now rng key e)
        (entryEffect cmd now' rng' key (some obj₀)) := fun heq => .inr ⟨hperm', heq⟩
  cases effectOf cmd key with
  | idle heffect => exact hsame (heffect _ _ _)
  | del hname hkey heffect => exact absurd (.inl ⟨hname, hkey⟩) hs.keeps
  | expire hname hkey arity add heffect =>
      refine hsame ?_
      rw [heffect, after_expireAction, hs.expireArg_eq hkey hname]
  | typed t act htype hkey htyped hreplays heffect =>
      have hne : obj₀.value.objType ≠ t := by
        rintro rfl
        rw [hstring] at hreplays
        exact hreplays
      exact hsame ((heffect _ _ _).trans ((htyped _ _ _).after_of_ne hne))
  | set hname hkey heffect =>
      cases ho : setStored cmd.args true with
      | none =>
          refine hsame ?_
          rw [heffect, after_setAction, Option.isSome_some, ho]
      | some o =>
          -- a `SET` that stores again has stored in the run
          obtain ⟨o', ho'⟩ : ∃ o', setStored cmd.args e.isSome = some o' := by
            cases e with
            | some obj => exact ⟨o, ho⟩
            | none =>
                by_contra hnone
                have hfalse : setStored cmd.args false = none :=
                  Option.eq_none_iff_forall_not_mem.mpr fun o' ho' => hnone ⟨o', ho'⟩
                exact (hs.meets hkey).2 ⟨hname, rfl, hfalse, by simp [ho]⟩
          obtain rfl := setStored_inj ho ho'
          have hexpiry : o.expiry = none := by
            by_contra hne
            exact hs.deadline e (.inl ⟨hname, o, ho', hne⟩)
          have hobj : ∀ now, setObject cmd.args now o =
              RedisObject.createString (cmd.args.getD 1 []) := fun now => by
            rw [setObject, hexpiry]
            rfl
          rw [heffect, heffect, after_setAction, after_setAction, Option.isSome_some, ho, ho']
          simp only [hobj]
          exact .inl (Option.Rel.some (.refl trivial rfl))

/-! ## Collections -/

/-- What a replay needs of the commands for a type of collection. -/
def Collection.Replayable {α β : Type} (C : Collection α β) : Prop :=
  ∀ name act, Replays name act C.type → name ≠ ascii "SPOP" → ∀ args,
    (name = ascii "ZADD" → 3 ≤ args.length → args.length % 2 = 1 → GoodScores (args.drop 1)) →
      ∃ ws, ∀ now rng, C.Writes (act args now rng) ws

theorem hashes_replayable : hashes.Replayable := fun _ _ h _ args _ => h args

theorem sets_replayable : sets.Replayable := fun _ _ h hname args _ => h hname args

theorem sortedSets_replayable : sortedSets.Replayable := fun _ _ h _ args hscores => h args hscores

variable {α β : Type} {C : Collection α β} {cells : Bytes → Option β}

/-- The run and the replay agree, or both have had the same writes: the replay on
top of `cells`, the run from nothing, or it holds another type by now. -/
def CollectionAgain (C : Collection α β) (cells : Bytes → Option β)
    (e e' : Option RedisObject) : Prop :=
  EntrySim e e' ∨ ∃ ws, C.Holds e' (storeAll C.same cells ws) ∧ e' ≠ none ∧ Permanent e ∧
    (C.Holds e (storeAll C.same (fun _ => none) ws) ∨
      storeAll C.same (fun _ => none) ws = (fun _ => none) ∧
        ∃ obj, e = some obj ∧ obj.value.objType ≠ C.type)

/-- A command of the type, on entries that do not agree. -/
theorem CollectionAgain.step_own (hC : C.Replayable)
    {act : List Bytes → TimePoint → (Nat → Nat → Nat) → KeyAction}
    (htype : commandTypes.lookup (normalize cmd.name) = some C.type)
    (hreplays : Replays (normalize cmd.name) act C.type) (hr : cmd.Repeatable e)
    (ht : ∀ obj, e = some obj → obj.value.objType = C.type)
    {ws : List (Bytes × Option β)} (he' : C.Holds e' (storeAll C.same cells ws))
    (he : C.Holds e (storeAll C.same (fun _ => none) ws)) :
    CollectionAgain C cells ((act cmd.args now rng).after e) ((act cmd.args now' rng').after e') := by
  have hscores : normalize cmd.name = ascii "ZADD" → 3 ≤ cmd.args.length →
      cmd.args.length % 2 = 1 → GoodScores (cmd.args.drop 1) := by
    intro hname
    have hzset : C.type = .zset := by
      rw [hname] at htype
      exact (Option.some.inj htype).symm
    exact hr.goodScores (fun obj hobj => hzset ▸ ht obj hobj) hname
  obtain ⟨ws', hw⟩ := hC _ act hreplays hr.name cmd.args hscores
  have hrun := hw now rng e _ he
  have hreplay := hw now' rng' e' _ he'
  rw [← storeAll_append] at hrun hreplay
  by_cases hnone : (act cmd.args now' rng').after e' = none
  · -- what empties the replay empties the run
    have hempty := storeAll_none C.same (hreplay.eq_none_iff.mp hnone)
    rw [hrun.eq_none_iff.mpr hempty, hnone]
    exact .inl EntrySim.none
  · exact .inr ⟨ws ++ ws', hreplay, hnone, hrun.permanent, .inl hrun⟩

/-- **Every steady command keeps the relation.** -/
theorem CollectionAgain.step (hC : C.Replayable) (h : CollectionAgain C cells e e')
    (hs : cmd.Steady key e)
    (hstring : ∀ obj, entryEffect cmd now rng key e = some obj → obj.value.objType ≠ .string) :
    CollectionAgain C cells (entryEffect cmd now rng key e) (entryEffect cmd now' rng' key e') := by
  rcases h with h | ⟨ws, he', hne, hperm, he⟩
  · exact .inl (entryEffect_sim h hs.repeatable)
  have hsame : entryEffect cmd now rng key e = e → entryEffect cmd now' rng' key e' = e' →
      CollectionAgain C cells (entryEffect cmd now rng key e) (entryEffect cmd now' rng' key e') := by
    intro hrun hreplay
    rw [hrun, hreplay]
    exact .inr ⟨ws, he', hne, hperm, he⟩
  obtain ⟨obj', rfl⟩ := Option.ne_none_iff_exists'.mp hne
  cases effectOf cmd key with
  | idle heffect => exact hsame (heffect _ _ _) (heffect _ _ _)
  | del hname hkey heffect => exact absurd (.inl ⟨hname, hkey⟩) hs.keeps
  | expire hname hkey arity add heffect =>
      refine hsame ?_ ?_ <;> rw [heffect, after_expireAction, hs.expireArg_eq hkey hname]
  | set hname hkey heffect =>
      -- no `SET` stores: a string would not go away again
      have hrun : setStored cmd.args e.isSome = none := by
        by_contra hsome
        obtain ⟨o, ho⟩ := Option.ne_none_iff_exists'.mp hsome
        refine hstring (setObject cmd.args now o) ?_ rfl
        rw [heffect, after_setAction, ho]
      have hreplay : setStored cmd.args true = none := by
        cases e with
        | some obj => exact hrun
        | none =>
            by_contra hsome
            exact (hs.meets hkey).2 ⟨hname, rfl, hrun, hsome⟩
      refine hsame ?_ ?_
      · rw [heffect, after_setAction, hrun]
      · rw [heffect, after_setAction, Option.isSome_some, hreplay]
  | typed t act htype hkey htyped hreplays heffect =>
      have ht := (hs.meets hkey).1 t htype
      rw [heffect, heffect]
      by_cases hown : t = C.type
      · subst hown
        have hrun : C.Holds e (storeAll C.same (fun _ => none) ws) := by
          rcases he with he | ⟨-, obj, rfl, hobj⟩
          · exact he
          · exact absurd (ht obj rfl) hobj
        exact CollectionAgain.step_own hC htype hreplays (hs.repeatable hkey) ht he' hrun
      · -- another type in the run: nothing happens to the collection of the replay
        have hobj' : obj'.value.objType ≠ t := by
          rw [he'.objType_eq]
          exact fun h => hown h.symm
        rw [(htyped _ _ _).after_of_ne hobj']
        have hempty : storeAll C.same (fun _ => none) ws = fun _ => none := by
          rcases he with he | ⟨hempty, -⟩
          · refine he.eq_none_iff.mp (Option.eq_none_iff_forall_not_mem.mpr fun obj hobj => ?_)
            cases hobj
            exact hown ((ht obj rfl).symm.trans he.objType_eq)
          · exact hempty
        refine .inr ⟨ws, he', hne, (htyped _ _ _).permanent_after hperm, ?_⟩
        have hafter := (htyped cmd.args now rng).objType_after ht
        cases hrun : (act cmd.args now rng).after e with
        | none =>
            rw [hempty]
            exact .inl .missing
        | some obj =>
            exact .inr ⟨hempty, obj, rfl, fun h => hown ((hafter obj hrun).symm.trans h)⟩

/-- At the end the replay has the cells of the run: the writes on top of their
own result. -/
theorem CollectionAgain.sim (h : CollectionAgain C cells e e') (he : C.Holds e cells) :
    EntrySim e e' := by
  rcases h with h | ⟨ws, he', -, -, hrun | ⟨-, obj, rfl, hobj⟩⟩
  · exact h
  · have hcells := he.unique hrun
    rw [hcells, storeAll_storeAll C.same C.same_symm C.same_trans, ← hcells] at he'
    exact he.sim he'
  · exact absurd he.objType_eq hobj

end again

end RedisLike
