import RedisLike.Command.Actions

/-!
# RedisLike.Command.Isolation

The commands for keys of one type, on a key of another type.

Such a command leaves the entry as it is.  Those that create a key refuse with
`WRONGTYPE`; the others reply as if the key were missing.  On a key of its own
type no command changes the deadline (`execute_isolated`).
-/

namespace RedisLike

open KeyAction

/-! ## The families -/

/-- The types of the command families: `GET`, the `H`, `L` and `R`, `S` and `Z`
commands.  `SET` writes to a key of any type. -/
def familyTypes : List (Bytes × ObjType) :=
  [ (ascii "GET", .string),
    (ascii "HSET", .hash), (ascii "HGET", .hash), (ascii "HDEL", .hash), (ascii "HEXISTS", .hash),
    (ascii "HKEYS", .hash), (ascii "HVALS", .hash), (ascii "HGETALL", .hash),
    (ascii "HLEN", .hash), (ascii "HSTRLEN", .hash),
    (ascii "LPUSH", .list), (ascii "RPUSH", .list), (ascii "LPOP", .list), (ascii "RPOP", .list),
    (ascii "LLEN", .list), (ascii "LRANGE", .list), (ascii "LINDEX", .list),
    (ascii "SADD", .set), (ascii "SREM", .set), (ascii "SISMEMBER", .set),
    (ascii "SMEMBERS", .set), (ascii "SCARD", .set), (ascii "SPOP", .set),
    (ascii "ZADD", .zset), (ascii "ZREM", .zset), (ascii "ZSCORE", .zset), (ascii "ZRANK", .zset),
    (ascii "ZREVRANK", .zset), (ascii "ZRANGE", .zset), (ascii "ZREVRANGE", .zset),
    (ascii "ZCARD", .zset) ]

/-- The commands that create a missing key, with a valid number of arguments. -/
def Refuses (name : Bytes) (args : List Bytes) : Prop :=
  name ∈ [ascii "HSET", ascii "ZADD"] ∧ 3 ≤ args.length ∧ args.length % 2 = 1 ∨
    name ∈ [ascii "LPUSH", ascii "RPUSH", ascii "SADD"] ∧ 2 ≤ args.length

theorem refuses_pairs {name : Bytes} (h : name ∈ [ascii "HSET", ascii "ZADD"])
    (args : List Bytes) : Refuses name args ↔ ¬ (args.length < 3 ∨ args.length % 2 ≠ 1) := by
  have hpush : name ∉ [ascii "LPUSH", ascii "RPUSH", ascii "SADD"] := by
    rcases List.mem_pair.mp h with rfl | rfl <;> decide
  simp only [Refuses, h, hpush, true_and, false_and, or_false]
  omega

theorem refuses_push {name : Bytes} (h : name ∈ [ascii "LPUSH", ascii "RPUSH", ascii "SADD"])
    (args : List Bytes) : Refuses name args ↔ ¬ args.length < 2 := by
  have hpairs : name ∉ [ascii "HSET", ascii "ZADD"] := fun hname => by
    rcases List.mem_pair.mp hname with rfl | rfl <;> exact absurd h (by decide)
  simp only [Refuses, h, hpairs, true_and, false_and, false_or]
  omega

theorem not_refuses {name : Bytes} {args : List Bytes}
    (h : name ∉ [ascii "HSET", ascii "ZADD", ascii "LPUSH", ascii "RPUSH", ascii "SADD"]) :
    ¬ Refuses name args := by
  simp only [List.mem_cons, List.not_mem_nil, or_false, not_or] at h
  simp [Refuses, h]

/-! ## Actions -/

namespace KeyAction

/-- The action leaves an object of another type than `t` alone, and refuses it
or replies as for a missing key; and it keeps the deadline of one of type `t`. -/
def Isolated (t : ObjType) (refuses : Prop) : KeyAction → Prop
  | idle _ => ¬ refuses
  | act g => ∀ obj : RedisObject,
    (obj.value.objType ≠ t → (g (some obj)).2 = some obj ∧
      (refuses → (g (some obj)).1 = wrongType) ∧ (¬ refuses → (g (some obj)).1 = (g none).1)) ∧
    (obj.value.objType = t → ∀ obj', (g (some obj)).2 = some obj' → obj'.expireAt = obj.expireAt)

theorem ReadOnly.isolated {t : ObjType} {refuses : Prop} {a : KeyAction} (h : a.ReadOnly)
    (hblind : a.Blind t) (hr : ¬ refuses) : a.Isolated t refuses := by
  cases a with
  | idle reply => exact hr
  | act g =>
      refine fun obj => ⟨fun hobj => ⟨h _, fun hc => absurd hc hr, fun _ => hblind obj hobj⟩,
        fun _ obj' hobj' => ?_⟩
      rw [h (some obj)] at hobj'
      rw [Option.some.inj hobj']

section shapes

variable {α : Type} {t : ObjType} {refuses : Prop} {as : ValueVariant → Option α}

/-- A check of the arguments, in front of an action that refuses nothing. -/
theorem Isolated.ite {c : Prop} [Decidable c] {reply : Bytes} {a : KeyAction} (hr : ¬ refuses)
    (h : a.Isolated t refuses) : (if c then idle reply else a).Isolated t refuses := by
  split
  · exact hr
  · exact h

/-- A command that creates, behind the check of its arguments. -/
theorem isolated_create {c : Prop} [Decidable c] {reply : Bytes} {fresh : RedisObject}
    {step : α → Bytes × ValueVariant} (has : ∀ v a, as v = some a → v.objType = t)
    (hc : refuses ↔ ¬ c) :
    (if c then idle reply else create as fresh step).Isolated t refuses := by
  split
  · next hif => exact fun hr => hc.mp hr hif
  next hif =>
  have hr : refuses := hc.mpr hif
  intro obj
  simp only [Option.getD_some]
  cases hv : as obj.value with
  | none => exact ⟨fun _ => ⟨rfl, fun _ => rfl, fun hn => absurd hr hn⟩, by rintro _ _ ⟨⟩; rfl⟩
  | some a =>
      refine ⟨fun hobj => absurd (has _ a hv) hobj, ?_⟩
      rintro _ _ ⟨⟩
      rfl

theorem isolated_remove {absent : Bytes} {step : α → Bytes × ValueVariant × Bool}
    (has : ∀ v a, as v = some a → v.objType = t) (hr : ¬ refuses) :
    (remove as absent step).Isolated t refuses := by
  intro obj
  dsimp only
  cases hv : as obj.value with
  | none =>
      exact ⟨fun _ => ⟨rfl, fun hc => absurd hc hr, fun _ => rfl⟩, by rintro _ _ ⟨⟩; rfl⟩
  | some a =>
      refine ⟨fun hobj => absurd (has _ a hv) hobj, fun _ obj' hobj' => ?_⟩
      dsimp only at hobj'
      split at hobj'
      · contradiction
      · cases hobj'
        rfl

end shapes

end KeyAction

/-! ## The table -/

/-- What a family promises of the handler of one of its names. -/
def IsolatedCmd (name : Bytes) (t : ObjType) (h : CmdHandler) : Prop :=
  ∀ ctx : CmdContext, ∃ a, Performs (h.on ctx) ctx.now (ctx.arg 0) a ∧
    a.Isolated t (Refuses name ctx.cmd.args)

theorem ReadsType.isolated {name : Bytes} {t : ObjType} {h : CmdHandler} (hr : ReadsType t h)
    (hname : name ∉ [ascii "HSET", ascii "ZADD", ascii "LPUSH", ascii "RPUSH", ascii "SADD"]) :
    IsolatedCmd name t h := fun ctx =>
  (hr ctx).imp fun _ ha => ⟨ha.1, ha.2.1.isolated ha.2.2 (not_refuses hname)⟩

theorem hSetCmd_isolated : IsolatedCmd (ascii "HSET") .hash hSetCmd := fun ctx =>
  ⟨_, hSetCmd_performs ctx,
    isolated_create (fun _ _ => objType_of_asHash) (refuses_pairs (by decide) _)⟩

theorem zAddCmd_isolated : IsolatedCmd (ascii "ZADD") .zset zAddCmd := fun ctx =>
  ⟨_, zAddCmd_performs ctx,
    isolated_create (fun _ _ => objType_of_asZSet) (refuses_pairs (by decide) _)⟩

theorem pushWith_isolated {name : Bytes} (hname : name ∈ [ascii "LPUSH", ascii "RPUSH"])
    (arity : Bytes) (push : RedisList → Bytes → RedisList) :
    IsolatedCmd name .list (pushWith arity push) := fun ctx =>
  ⟨_, pushWith_performs arity push ctx, isolated_create (fun _ _ => objType_of_asList)
    (refuses_push (by rcases List.mem_pair.mp hname with rfl | rfl <;> decide) _)⟩

theorem sAddCmd_isolated : IsolatedCmd (ascii "SADD") .set sAddCmd := fun ctx =>
  ⟨_, sAddCmd_performs ctx,
    isolated_create (fun _ _ => objType_of_asSet) (refuses_push (by decide) _)⟩

theorem hDelCmd_isolated : IsolatedCmd (ascii "HDEL") .hash hDelCmd := fun ctx =>
  ⟨_, hDelCmd_performs ctx, Isolated.ite (not_refuses (by decide))
    (isolated_remove (fun _ _ => objType_of_asHash) (not_refuses (by decide)))⟩

theorem sRemCmd_isolated : IsolatedCmd (ascii "SREM") .set sRemCmd := fun ctx =>
  ⟨_, sRemCmd_performs ctx, Isolated.ite (not_refuses (by decide))
    (isolated_remove (fun _ _ => objType_of_asSet) (not_refuses (by decide)))⟩

theorem zRemCmd_isolated : IsolatedCmd (ascii "ZREM") .zset zRemCmd := fun ctx =>
  ⟨_, zRemCmd_performs ctx, Isolated.ite (not_refuses (by decide))
    (isolated_remove (fun _ _ => objType_of_asZSet) (not_refuses (by decide)))⟩

theorem popWith_isolated {name : Bytes}
    (hname : name ∉ [ascii "HSET", ascii "ZADD", ascii "LPUSH", ascii "RPUSH", ascii "SADD"])
    (arity : Bytes) (pop : RedisList → Option (Bytes × RedisList)) :
    IsolatedCmd name .list (popWith arity pop) := by
  intro ctx
  have hr := @not_refuses name ctx.cmd.args hname
  refine ⟨_, popWith_performs arity pop ctx, ?_⟩
  unfold popAction
  refine Isolated.ite hr ?_
  cases (if ctx.cmd.args.length ≥ 2 then parseInt (ctx.cmd.args.getD 1 []) else some 1) with
  | none => exact hr
  | some count => exact Isolated.ite hr (isolated_remove (fun _ _ => objType_of_asList) hr)

theorem sPopCmd_isolated : IsolatedCmd (ascii "SPOP") .set sPopCmd := by
  intro ctx
  have hr := @not_refuses (ascii "SPOP") ctx.cmd.args (by decide)
  refine ⟨_, sPopCmd_performs ctx, ?_⟩
  unfold sPopAction
  refine Isolated.ite hr ?_
  cases sPopArg ctx.cmd.args with
  | none => exact hr
  | some count => exact isolated_remove (fun _ _ => objType_of_asSet) hr

/-- **Every command of a family is isolated.** -/
theorem familyTypes_isolated : ∀ p ∈ familyTypes,
    ∃ h, findHandler p.1 = some h ∧ IsolatedCmd p.1 p.2 h := by
  obtain ⟨hget, hexists, hkeys, hvals, hgetall, hlen, hstrlen⟩ := hashCmd_reads
  obtain ⟨hllen, hlrange, hlindex⟩ := listCmd_reads
  obtain ⟨hsismember, hsmembers, hscard⟩ := setCmd_reads
  obtain ⟨hzscore, hzrank, hzrevrank, hzcard⟩ := zSetCmd_reads
  obtain ⟨hzrange, hzrevrange⟩ := zRangeCmd_reads
  simp only [familyTypes, List.forall_mem_cons, List.not_mem_nil, false_imp_iff, implies_true,
    and_true]
  exact ⟨⟨_, rfl, getCmd_reads.isolated (by decide)⟩,
    ⟨_, rfl, hSetCmd_isolated⟩, ⟨_, rfl, hget.isolated (by decide)⟩, ⟨_, rfl, hDelCmd_isolated⟩,
    ⟨_, rfl, hexists.isolated (by decide)⟩, ⟨_, rfl, hkeys.isolated (by decide)⟩,
    ⟨_, rfl, hvals.isolated (by decide)⟩, ⟨_, rfl, hgetall.isolated (by decide)⟩,
    ⟨_, rfl, hlen.isolated (by decide)⟩, ⟨_, rfl, hstrlen.isolated (by decide)⟩,
    ⟨_, rfl, pushWith_isolated (by decide) _ _⟩, ⟨_, rfl, pushWith_isolated (by decide) _ _⟩,
    ⟨_, rfl, popWith_isolated (by decide) _ _⟩, ⟨_, rfl, popWith_isolated (by decide) _ _⟩,
    ⟨_, rfl, hllen.isolated (by decide)⟩, ⟨_, rfl, hlrange.isolated (by decide)⟩,
    ⟨_, rfl, hlindex.isolated (by decide)⟩,
    ⟨_, rfl, sAddCmd_isolated⟩, ⟨_, rfl, sRemCmd_isolated⟩,
    ⟨_, rfl, hsismember.isolated (by decide)⟩, ⟨_, rfl, hsmembers.isolated (by decide)⟩,
    ⟨_, rfl, hscard.isolated (by decide)⟩, ⟨_, rfl, sPopCmd_isolated⟩,
    ⟨_, rfl, zAddCmd_isolated⟩, ⟨_, rfl, zRemCmd_isolated⟩,
    ⟨_, rfl, hzscore.isolated (by decide)⟩, ⟨_, rfl, hzrank.isolated (by decide)⟩,
    ⟨_, rfl, hzrevrank.isolated (by decide)⟩, ⟨_, rfl, hzrange.isolated (by decide)⟩,
    ⟨_, rfl, hzrevrange.isolated (by decide)⟩, ⟨_, rfl, hzcard.isolated (by decide)⟩⟩

/-! ## Commands -/

/-- **Type isolation.**  A command of a family, on a live key of another type,
leaves the entry as it is, and replies `WRONGTYPE` when it would create the key,
otherwise what it replies to any key space without the key.  On a live key of
its own type it never changes the deadline. -/
theorem execute_isolated {ctx : CmdContext} {t : ObjType}
    (hfamily : familyTypes.lookup (normalize ctx.cmd.name) = some t) {key : Bytes}
    {rest : List Bytes} (hargs : ctx.cmd.args = key :: rest) {obj : RedisObject}
    (hlive : ctx.db.live ctx.now key = some obj) :
    (obj.type ≠ t → (execute ctx).2.get key = some obj ∧ ctx.db.get key = some obj ∧
      (Refuses (normalize ctx.cmd.name) ctx.cmd.args → (execute ctx).1 = wrongType) ∧
      (¬ Refuses (normalize ctx.cmd.name) ctx.cmd.args → ∀ db : Dict, db.get key = none →
        (execute ctx).1 = (execute { ctx with db := db }).1)) ∧
    (obj.type = t → ∀ obj', (execute ctx).2.get key = some obj' →
      obj'.expireAt = obj.expireAt) := by
  obtain ⟨handler, hf, hisolated⟩ := familyTypes_isolated _ (mem_of_lookup_eq_some hfamily)
  obtain ⟨a, hspec, ha⟩ := hisolated ctx
  have hget : ctx.db.get key = some obj := (liveEntry_eq_some.mp hlive).1
  have hkey : ctx.arg 0 = key := by rw [CmdContext.arg, hargs]; rfl
  rw [hkey] at hspec
  have hexec : ∀ db, execute { ctx with db := db } = CmdHandler.on handler ctx db := fun db =>
    @execute_of_findHandler { ctx with db := db } handler hf
  rw [hexec ctx.db, obj.type_eq]
  cases a with
  | idle reply =>
      rw [hspec ctx.db]
      refine ⟨fun _ => ⟨hget, hget, fun hr => absurd hr ha, fun _ db _ => ?_⟩, ?_⟩
      · rw [hexec db, hspec db]
      · intro _ obj' hobj'
        rw [Option.some.inj (hobj'.symm.trans hget)]
  | act g =>
      obtain ⟨hother, hown⟩ := ha obj
      rw [(hspec ctx.db).1, (hspec ctx.db).2 key, if_pos rfl, hlive]
      refine ⟨fun htype => ?_, hown⟩
      obtain ⟨hentry, hrefuse, hmissing⟩ := hother htype
      refine ⟨hentry, hget, hrefuse, fun hr db hdb => ?_⟩
      rw [hexec db, (hspec db).1, Dict.live, hdb]
      exact hmissing hr

/-- A key that holds a string until instant 10. -/
def stringEntry : Dict :=
  (∅ : Dict).set (ascii "k") ((RedisObject.createString (ascii "v")).withExpire (some 10))

theorem execute_isolated_zadd :
    (execute ⟨stringEntry, ⟨ascii "zadd", [ascii "k", ascii "1", ascii "a"]⟩, 1,
      fun _ _ => 0⟩).1 = wrongType :=
  ((@execute_isolated ⟨stringEntry, ⟨ascii "zadd", [ascii "k", ascii "1", ascii "a"]⟩, 1,
      fun _ _ => 0⟩ .zset rfl (ascii "k") _ rfl _ rfl).1 (by decide)).2.2.1
    (.inl ⟨by decide, by decide, by decide⟩)

end RedisLike
