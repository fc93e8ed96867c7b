import RedisLike.Command.Typed

/-!
# RedisLike.Command.Congruence

What the effect of a command on an entry depends on.

The clock and the random words behind a command are not in the log, so a replay
runs the commands with others.  `entryEffect_sim`: on equivalent entries the
effects are equivalent again, whatever the clock and the words, unless the
command stores a deadline or a NaN score.  `execute_of_overwrites`: some
commands leave the same entry in every state.
-/

namespace RedisLike

/-! ## `SET` and `EXPIRE` on an entry -/

/-- The options of a `SET` that stores, when the key is `present` or not. -/
def setStored (args : List Bytes) (present : Bool) : Option SetOptions :=
  if args.length < 2 then none
  else
    match setOptions (args.drop 2) {} with
    | .error _ => none
    | .ok o =>
      if o.nx && o.xx || o.nx && present || o.xx && !present then none else some o

/-- The object that `SET` stores. -/
def setObject (args : List Bytes) (now : TimePoint) (o : SetOptions) : RedisObject :=
  (RedisObject.createString (args.getD 1 [])).withExpire (o.expiry.map (addMilliseconds now))

theorem after_setAction (args : List Bytes) (now : TimePoint) (e : Option RedisObject) :
    (setAction args now).after e =
      match setStored args e.isSome with
      | none => e
      | some o => some (setObject args now o) := by
  unfold setAction setStored
  by_cases h : args.length < 2
  · simp only [if_pos h]
    rfl
  · simp only [if_neg h]
    cases setOptions (args.drop 2) {} with
    | error reply => rfl
    | ok o =>
        cases hn : o.nx <;> cases hx : o.xx <;> cases e <;>
          simp [KeyAction.after, hn, hx, setObject]

/-- The time that an `EXPIRE` or a `PEXPIRE` reads. -/
def expireArg (args : List Bytes) : Option Int64 :=
  if args.length < 2 then none else parseInt (args.getD 1 [])

theorem after_expireAction (arity : Bytes) (add : TimePoint → Int64 → TimePoint)
    (args : List Bytes) (now : TimePoint) (e : Option RedisObject) :
    (expireAction arity add args now).after e =
      match expireArg args with
      | none => e
      | some n => e.bind fun obj =>
        if n > 0 then some (obj.withExpire (some (add now n))) else none := by
  unfold expireAction expireArg
  by_cases h : args.length < 2
  · simp only [if_pos h]
    rfl
  · simp only [if_neg h]
    cases parseInt (args.getD 1 []) with
    | none => rfl
    | some n => cases e <;> rfl

/-! ## Commands apart -/

namespace RespCommand

/-- The command gives the live entry `e` of its key a deadline: a `SET` with
`EX` or `PX` that stores, or a positive `EXPIRE` or `PEXPIRE` that finds the
key. -/
def SetsDeadline (cmd : RespCommand) (e : Option RedisObject) : Prop :=
  normalize cmd.name = ascii "SET" ∧
      (∃ o, setStored cmd.args e.isSome = some o ∧ o.expiry ≠ none) ∨
    (normalize cmd.name = ascii "EXPIRE" ∨ normalize cmd.name = ascii "PEXPIRE") ∧
      e ≠ none ∧ ∃ n, expireArg cmd.args = some n ∧ n > 0

/-- The command stores a NaN as a score: a `ZADD` on a sorted set, or on a
missing key, that reads one. -/
def StoresNaN (cmd : RespCommand) (e : Option RedisObject) : Prop :=
  normalize cmd.name = ascii "ZADD" ∧ 3 ≤ cmd.args.length ∧ cmd.args.length % 2 = 1 ∧
    (∀ obj, e = some obj → obj.value.objType = .zset) ∧ ¬ NoNaN (scoreWrites (cmd.args.drop 1))

/-- A score that is no number stops the command: a `ZADD` on a sorted set, or on
a missing key, that meets one. -/
def StopsAtScore (cmd : RespCommand) (e : Option RedisObject) : Prop :=
  normalize cmd.name = ascii "ZADD" ∧ 3 ≤ cmd.args.length ∧ cmd.args.length % 2 = 1 ∧
    (∀ obj, e = some obj → obj.value.objType = .zset) ∧
      ∃ p ∈ scorePairs (cmd.args.drop 1), parseDouble p.1 = none

/-- The command leaves the same entry of `key` in every state: a `DEL` of it, a
`SET` without options, an `EXPIRE` or a `PEXPIRE` that is not positive. -/
def Overwrites (cmd : RespCommand) (key : Bytes) : Prop :=
  normalize cmd.name = ascii "DEL" ∧ key ∈ cmd.args ∨
    key = cmd.args.getD 0 [] ∧
      (normalize cmd.name = ascii "SET" ∧ cmd.args.length = 2 ∨
        (normalize cmd.name = ascii "EXPIRE" ∨ normalize cmd.name = ascii "PEXPIRE") ∧
          ∃ n, expireArg cmd.args = some n ∧ ¬ n > 0)

end RespCommand

/-- Only `SET`, `EXPIRE` and `PEXPIRE` set deadlines. -/
theorem RespCommand.not_setsDeadline {cmd : RespCommand} (h : normalize cmd.name ∉ untyped)
    (e : Option RedisObject) : ¬ cmd.SetsDeadline e := by
  rintro (⟨hname, -⟩ | ⟨hname | hname, -⟩) <;> rw [hname] at h <;> exact h (by decide)

/-- What an overwriting command leaves. -/
def overwritten (cmd : RespCommand) : Option RedisObject :=
  if normalize cmd.name = ascii "SET" then some (RedisObject.createString (cmd.args.getD 1 []))
  else none

theorem setAction_of_length {args : List Bytes} (h : args.length = 2) (now : TimePoint) :
    setAction args now =
      .act fun _ => (RespCodec.ok, some (RedisObject.createString (args.getD 1 []))) := by
  have hdrop : args.drop 2 = [] := List.drop_eq_nil_iff.mpr (le_of_eq h)
  rw [setAction, if_neg (by omega), hdrop]
  rfl

theorem expireAction_of_expireArg {args : List Bytes} {n : Int64} (h : expireArg args = some n)
    (hn : ¬ n > 0) (arity : Bytes) (add : TimePoint → Int64 → TimePoint) (now : TimePoint) :
    expireAction arity add args now = .act fun e =>
      (RespCodec.integer (if e.isSome then 1 else 0), none) := by
  unfold expireArg at h
  split at h
  · contradiction
  · next hlen =>
    rw [expireAction, if_neg hlen, h]
    simp only [if_neg hn]
    congr 1
    funext e
    cases e <;> rfl

/-- A registered handler with an action that looks at no entry. -/
theorem execute_of_const {ctx : CmdContext} {handler : CmdHandler}
    {reply : Option RedisObject → Bytes} {e : Option RedisObject}
    (hf : findHandler (normalize ctx.cmd.name) = some handler)
    (h : Performs (CmdHandler.on handler ctx) ctx.now (ctx.arg 0) (.act fun x => (reply x, e)))
    (hreply : ∀ x, isError (reply x) = false) :
    isError (execute ctx).1 = false ∧ (execute ctx).2.get (ctx.arg 0) = e := by
  have hexec : execute ctx = CmdHandler.on handler ctx ctx.db := execute_of_findHandler hf
  rw [hexec]
  refine ⟨?_, ?_⟩
  · rw [(h ctx.db).1]
    exact hreply _
  · rw [(h ctx.db).2, if_pos rfl]

/-- **What an overwriting command does** does not depend on the state. -/
theorem execute_of_overwrites {ctx : CmdContext} {key : Bytes} (h : ctx.cmd.Overwrites key) :
    isError (execute ctx).1 = false ∧ (execute ctx).2.get key = overwritten ctx.cmd := by
  rcases h with ⟨hname, hkey⟩ | ⟨rfl, ⟨hname, hlen⟩ | ⟨hname, n, harg, hn⟩⟩
  · have hf : findHandler (normalize ctx.cmd.name) = some delCmd := by
      rw [hname]
      rfl
    have hne : ¬ ctx.cmd.args.isEmpty = true := by
      rw [List.isEmpty_iff]
      exact List.ne_nil_of_mem hkey
    have hexec : execute ctx = (RespCodec.integer (delLoop ctx.cmd.args ctx.db 0).1,
        (delLoop ctx.cmd.args ctx.db 0).2) := by
      rw [execute_of_findHandler hf]
      simp only [delCmd, if_neg hne]
    rw [hexec, overwritten, hname, if_neg (by decide)]
    refine ⟨isError_integer _, ?_⟩
    rw [get_delLoop, if_pos hkey]
  · have hspec := setCmd_performs ctx
    rw [setAction_of_length hlen] at hspec
    have hf : findHandler (normalize ctx.cmd.name) = some setCmd := by
      rw [hname]
      rfl
    rw [overwritten, if_pos hname]
    exact execute_of_const hf hspec fun _ => isError_ok
  · obtain ⟨handler, hf, arity, add, hspec⟩ : ∃ handler,
        findHandler (normalize ctx.cmd.name) = some handler ∧ ∃ arity add,
          Performs (CmdHandler.on handler ctx) ctx.now (ctx.arg 0)
            (expireAction arity add ctx.cmd.args ctx.now) := by
      rcases hname with hname | hname
      · exact ⟨expireCmd, by rw [hname]; rfl, _, _, expireWith_performs _ _ ctx⟩
      · exact ⟨pExpireCmd, by rw [hname]; rfl, _, _, expireWith_performs _ _ ctx⟩
    have hset : normalize ctx.cmd.name ≠ ascii "SET" := by
      rcases hname with hname | hname <;> rw [hname] <;> decide
    rw [expireAction_of_expireArg harg hn] at hspec
    rw [overwritten, if_neg hset]
    exact execute_of_const hf hspec fun _ => isError_integer _

/-! ## The effects by cases -/

/-- What the effect of a command on the entry of a key can be. -/
inductive EffectOf (cmd : RespCommand) (key : Bytes) : Prop where
  | idle (h : ∀ now rng e, entryEffect cmd now rng key e = e)
  | del (hname : normalize cmd.name = ascii "DEL") (hkey : key ∈ cmd.args)
      (h : ∀ now rng e, entryEffect cmd now rng key e = none)
  | set (hname : normalize cmd.name = ascii "SET") (hkey : key = cmd.args.getD 0 [])
      (h : ∀ now rng e, entryEffect cmd now rng key e = (setAction cmd.args now).after e)
  | expire (hname : normalize cmd.name = ascii "EXPIRE" ∨ normalize cmd.name = ascii "PEXPIRE")
      (hkey : key = cmd.args.getD 0 []) (arity : Bytes) (add : TimePoint → Int64 → TimePoint)
      (h : ∀ now rng e, entryEffect cmd now rng key e =
        (expireAction arity add cmd.args now).after e)
  | typed (t : ObjType) (act : List Bytes → TimePoint → (Nat → Nat → Nat) → KeyAction)
      (htype : commandTypes.lookup (normalize cmd.name) = some t)
      (hkey : key = cmd.args.getD 0 []) (htyped : ∀ args now rng, (act args now rng).Typed t)
      (hreplays : Replays (normalize cmd.name) act t)
      (h : ∀ now rng e, entryEffect cmd now rng key e = (act cmd.args now rng).after e)

/-- **The effects by cases.** -/
theorem effectOf (cmd : RespCommand) (key : Bytes) : EffectOf cmd key := by
  by_cases hdel : normalize cmd.name = ascii "DEL"
  · by_cases hkey : key ∈ cmd.args
    · exact .del hdel hkey fun _ _ _ => by rw [entryEffect, if_pos hdel, if_pos hkey]
    · exact .idle fun _ _ _ => by rw [entryEffect, if_pos hdel, if_neg hkey]
  cases hact : writeActions.lookup (normalize cmd.name) with
  | none => exact .idle fun _ _ _ => by rw [entryEffect, if_neg hdel, hact]
  | some act =>
      have heffect : ∀ now rng e, entryEffect cmd now rng key e =
          if key = cmd.args.getD 0 [] then (act cmd.args now rng).after e else e := by
        intro now rng e
        rw [entryEffect, if_neg hdel, hact]
      by_cases hkey : key = cmd.args.getD 0 []
      swap
      · exact .idle fun now rng e => by rw [heffect, if_neg hkey]
      have heffect : ∀ now rng e, entryEffect cmd now rng key e = (act cmd.args now rng).after e :=
        fun now rng e => by rw [heffect, if_pos hkey]
      rcases writeActions_typed _ (mem_of_lookup_eq_some hact) with
        hname | ⟨t, htype, htyped, hreplays⟩
      · simp only [untyped, List.mem_cons, List.not_mem_nil, or_false] at hname
        rcases hname with hname | hname | hname <;> rw [hname] at hact <;> cases hact
        · exact .set hname hkey heffect
        · exact .expire (.inl hname) hkey _ _ heffect
        · exact .expire (.inr hname) hkey _ _ heffect
      · exact .typed t act htype hkey htyped hreplays heffect

/-! ## Equivalent effects -/

/-- What the command does to the live entry `e` of its key can be repeated with
another clock and other random words. -/
structure RespCommand.Repeatable (cmd : RespCommand) (e : Option RedisObject) : Prop where
  name : normalize cmd.name ≠ ascii "SPOP"
  deadline : ¬ cmd.SetsDeadline e
  nan : ¬ cmd.StoresNaN e
  score : ¬ cmd.StopsAtScore e

/-- The scores of a repeatable `ZADD` that finds a sorted set, or no key. -/
theorem RespCommand.Repeatable.goodScores {cmd : RespCommand} {e : Option RedisObject}
    (h : cmd.Repeatable e) (htype : ∀ obj, e = some obj → obj.value.objType = .zset)
    (hname : normalize cmd.name = ascii "ZADD") (h3 : 3 ≤ cmd.args.length)
    (hodd : cmd.args.length % 2 = 1) : GoodScores (cmd.args.drop 1) := by
  have hparse : ∀ p ∈ scorePairs (cmd.args.drop 1), parseDouble p.1 ≠ none := fun p hp hnone =>
    h.score ⟨hname, h3, hodd, htype, p, hp, hnone⟩
  have hnan : NoNaN (scoreWrites (cmd.args.drop 1)) :=
    not_not.mp fun hn => h.nan ⟨hname, h3, hodd, htype, hn⟩
  generalize cmd.args.drop 1 = args at hparse hnan
  fun_induction scoreWrites args with
  | case1 text member rest hs =>
      exact absurd hs (hparse (text, member) (by simp [scorePairs]))
  | case2 text member rest s hs ih =>
      rw [scorePairs, List.forall_mem_cons] at hparse
      rw [GoodScores, scorePairs, List.forall_mem_cons]
      exact ⟨⟨s, hs, hnan (member, some s) (by simp) s rfl⟩,
        ih hparse.2 fun w hw => hnan w (List.mem_cons_of_mem _ hw)⟩
  | case3 args hargs => simp [GoodScores, scorePairs]

section sim

variable {e e' : Option RedisObject} {now now' : TimePoint} {rng rng' : Nat → Nat → Nat}

theorem EntrySim.isSome_eq (h : EntrySim e e') : e.isSome = e'.isSome := by
  cases h <;> rfl

theorem EntrySim.objType_eq (h : EntrySim e e') {t : ObjType}
    (ht : ∀ obj, e = some obj → obj.value.objType = t) :
    ∀ obj, e' = some obj → obj.value.objType = t := by
  cases h with
  | none => simp
  | some h =>
      rintro obj ⟨⟩
      rw [← h.same.objType_eq]
      exact ht _ rfl

/-- Equivalent lists are equal. -/
theorem EntrySim.eq_of_list (h : EntrySim e e')
    (ht : ∀ obj, e = some obj → obj.value.objType = .list) : e = e' := by
  cases h with
  | none => rfl
  | @some obj obj' h =>
      have hvalue : obj.value = obj'.value := by
        have hsame := h.same
        have htype := ht obj rfl
        generalize obj.value = v at hsame htype
        generalize obj'.value = v' at hsame
        cases v with
        | list l =>
            cases v' with
            | list l' => exact congrArg ValueVariant.list hsame
            | _ => exact hsame.elim
        | _ => cases htype
      rw [RedisObject.ext_value hvalue (h.permanent.trans h.permanent'.symm)]

theorem KeyAction.Typed.after_of_ne {t : ObjType} {action : KeyAction} (h : action.Typed t)
    {obj : RedisObject} (hobj : obj.value.objType ≠ t) : action.after (some obj) = some obj := by
  rcases h (some obj) with h | ⟨h, -⟩
  · exact h
  · exact absurd (h obj rfl) hobj

/-- An action on an entry of its type leaves one of its type, or none. -/
theorem KeyAction.Typed.objType_after {t : ObjType} {action : KeyAction} (h : action.Typed t)
    (ht : ∀ obj, e = some obj → obj.value.objType = t) :
    ∀ obj, action.after e = some obj → obj.value.objType = t := by
  rcases h e with h | ⟨-, h⟩
  · rwa [h]
  · exact fun obj hobj => (h obj hobj).1

theorem KeyAction.Typed.permanent_after {t : ObjType} {action : KeyAction} (h : action.Typed t)
    (he : Permanent e) : Permanent (action.after e) := by
  rcases h e with h | ⟨-, h⟩
  · rwa [h]
  · exact fun obj hobj => (h obj hobj).2 he

theorem Collection.sim_of_writes {α β : Type} (C : Collection α β) {action action' : KeyAction}
    {ws : List (Bytes × Option β)} (h : EntrySim e e')
    (ht : ∀ obj, e = some obj → obj.value.objType = C.type) (hw : C.Writes action ws)
    (hw' : C.Writes action' ws) : EntrySim (action.after e) (action'.after e') := by
  obtain ⟨cells, hc, hc'⟩ := C.exists_holds h ht
  exact (hw e cells hc).sim (hw' e' cells hc')

/-- An object without a deadline whose value needs no care is equivalent to itself. -/
theorem RedisObject.Sim.refl {obj : RedisObject} (h : obj.value.Good) (he : obj.expireAt = none) :
    obj.Sim obj := ⟨.refl _, h, h, he, he⟩

theorem setAction_sim {cmd : RespCommand} (hname : normalize cmd.name = ascii "SET")
    (h : EntrySim e e') (hd : ¬ cmd.SetsDeadline e) :
    EntrySim ((setAction cmd.args now).after e) ((setAction cmd.args now').after e') := by
  rw [after_setAction, after_setAction, ← h.isSome_eq]
  cases ho : setStored cmd.args e.isSome with
  | none => exact h
  | some o =>
      have hexpiry : o.expiry = none := by
        by_contra hne
        exact hd (.inl ⟨hname, o, ho, hne⟩)
      have hobj : ∀ now, setObject cmd.args now o =
          RedisObject.createString (cmd.args.getD 1 []) := fun now => by
        rw [setObject, hexpiry]
        rfl
      simp only [hobj]
      exact Option.Rel.some (.refl trivial rfl)

theorem expireAction_sim {cmd : RespCommand}
    (hname : normalize cmd.name = ascii "EXPIRE" ∨ normalize cmd.name = ascii "PEXPIRE")
    (arity : Bytes) (add : TimePoint → Int64 → TimePoint) (h : EntrySim e e')
    (hd : ¬ cmd.SetsDeadline e) :
    EntrySim ((expireAction arity add cmd.args now).after e)
      ((expireAction arity add cmd.args now').after e') := by
  rw [after_expireAction, after_expireAction]
  cases harg : expireArg cmd.args with
  | none => exact h
  | some n =>
      cases h with
      | none => exact EntrySim.none
      | some h =>
          have hn : ¬ n > 0 := fun hn =>
            hd (.inr ⟨hname, Option.some_ne_none _, n, harg, hn⟩)
          simp only [Option.bind_some, if_neg hn]
          exact EntrySim.none

theorem Typed.after_sim {t : ObjType} {cmd : RespCommand}
    {act : List Bytes → TimePoint → (Nat → Nat → Nat) → KeyAction}
    (htyped : ∀ args now rng, (act args now rng).Typed t)
    (hreplays : Replays (normalize cmd.name) act t) (hr : cmd.Repeatable e) (h : EntrySim e e')
    (ht : ∀ obj, e = some obj → obj.value.objType = t) :
    EntrySim ((act cmd.args now rng).after e) ((act cmd.args now' rng').after e') := by
  cases t with
  | string => exact hreplays.elim
  | hash =>
      obtain ⟨ws, hw⟩ := hreplays cmd.args
      exact hashes.sim_of_writes h ht (hw _ _) (hw _ _)
  | set =>
      obtain ⟨ws, hw⟩ := hreplays hr.name cmd.args
      exact sets.sim_of_writes h ht (hw _ _) (hw _ _)
  | zset =>
      obtain ⟨ws, hw⟩ := hreplays cmd.args (hr.goodScores ht)
      exact sortedSets.sim_of_writes h ht (hw _ _) (hw _ _)
  | list =>
      obtain rfl := h.eq_of_list ht
      have hact : act cmd.args now' rng' = act cmd.args now rng := hreplays _ _ _ _ _
      have htype := (htyped cmd.args now rng).objType_after ht
      have hperm := (htyped cmd.args now rng).permanent_after h.permanent.1
      rw [hact]
      generalize (act cmd.args now rng).after e = x at htype hperm
      cases x with
      | none => exact EntrySim.none
      | some obj =>
          refine Option.Rel.some (.refl ?_ (hperm obj rfl))
          have hlist := htype obj rfl
          generalize obj.value = v at hlist
          cases v with
          | list l => trivial
          | _ => cases hlist

/-- **Equivalent entries have equivalent effects**: the clock and the random
words do not matter. -/
theorem entryEffect_sim {cmd : RespCommand} {key : Bytes} (h : EntrySim e e')
    (hr : key = cmd.args.getD 0 [] → cmd.Repeatable e) :
    EntrySim (entryEffect cmd now rng key e) (entryEffect cmd now' rng' key e') := by
  cases effectOf cmd key with
  | idle heffect =>
      rw [heffect, heffect]
      exact h
  | del hname hkey heffect =>
      rw [heffect, heffect]
      exact EntrySim.none
  | set hname hkey heffect =>
      rw [heffect, heffect]
      exact setAction_sim hname h (hr hkey).deadline
  | expire hname hkey arity add heffect =>
      rw [heffect, heffect]
      exact expireAction_sim hname arity add h (hr hkey).deadline
  | typed t act htype hkey htyped hreplays heffect =>
      rw [heffect, heffect]
      by_cases ht : ∀ obj, e = some obj → obj.value.objType = t
      · exact Typed.after_sim htyped hreplays (hr hkey) h ht
      · -- an object of another type stays as it is
        simp only [not_forall, exists_prop] at ht
        obtain ⟨obj, rfl, hobj⟩ := ht
        obtain ⟨obj', rfl⟩ := Option.isSome_iff_exists.mp (h.isSome_eq ▸ rfl : e'.isSome)
        have hobj' : obj'.value.objType ≠ t := by
          cases h with
          | some h => rwa [← h.same.objType_eq]
        rw [(htyped _ _ _).after_of_ne hobj, (htyped _ _ _).after_of_ne hobj']
        exact h

/-- An entry stays without a deadline when the command sets none. -/
theorem permanent_entryEffect {cmd : RespCommand} {key : Bytes} (h : Permanent e)
    (hd : key = cmd.args.getD 0 [] → ¬ cmd.SetsDeadline e) :
    Permanent (entryEffect cmd now rng key e) := by
  cases effectOf cmd key with
  | idle heffect => rwa [heffect]
  | del hname hkey heffect =>
      rw [heffect]
      exact permanent_none
  | set hname hkey heffect =>
      rw [heffect, after_setAction]
      cases ho : setStored cmd.args e.isSome with
      | none => exact h
      | some o =>
          have hexpiry : o.expiry = none := by
            by_contra hne
            exact hd hkey (.inl ⟨hname, o, ho, hne⟩)
          rintro obj ⟨⟩
          rw [setObject, hexpiry]
          rfl
  | expire hname hkey arity add heffect =>
      rw [heffect, after_expireAction]
      cases harg : expireArg cmd.args with
      | none => exact h
      | some n =>
          cases e with
          | none => exact permanent_none
          | some obj =>
              have hn : ¬ n > 0 := fun hn =>
                hd hkey (.inr ⟨hname, Option.some_ne_none _, n, harg, hn⟩)
              simp only [Option.bind_some, if_neg hn]
              exact permanent_none
  | typed t act htype hkey htyped hreplays heffect =>
      rw [heffect]
      exact (htyped _ _ _).permanent_after h

end sim

end RedisLike
