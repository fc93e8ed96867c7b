import RedisLike.Command.Expiry

/-!
# RedisLike.Command.Atomic

What a command that replies an error leaves behind.

Every action but that of `ZADD` is `Atomic`: an error leaves the entry as it is.
`ZADD` creates its list before it reads the scores, and reads each score in
front of its `Insert`, so an unreadable score leaves the list, and the pairs in
front of it, in the key space.
-/

namespace RedisLike

open KeyAction

/-! ## The actions that keep the entry on an error -/

namespace KeyAction

/-- An action that only replies. -/
theorem atomic_idle (reply : Bytes) : (idle reply).Atomic := trivial

/-- An action that makes a check in front of another one. -/
theorem Atomic.ite {c : Prop} [Decidable c] {reply : Bytes} {a : KeyAction} (h : a.Atomic) :
    (if c then idle reply else a).Atomic := by
  split
  · exact atomic_idle reply
  · exact h

/-- `create` fails with a wrong type only, if `step` replies no error. -/
theorem atomic_create {α : Type} {as : ValueVariant → Option α} {fresh : RedisObject}
    {step : α → Bytes × ValueVariant} (h : ∀ v, isError (step v).1 = false) :
    (create as fresh step).Atomic := by
  intro e he
  cases hv : as (e.getD fresh).value with
  | none => simp [hv]
  | some v =>
      simp only [hv] at he
      rw [h v] at he
      contradiction

/-- `remove` replies an error only where it finds nothing, if `step` replies none. -/
theorem atomic_remove {α : Type} {as : ValueVariant → Option α} {absent : Bytes}
    {step : α → Bytes × ValueVariant × Bool} (h : ∀ v, isError (step v).1 = false) :
    (remove as absent step).Atomic := by
  intro e he
  cases e with
  | none => rfl
  | some obj =>
      cases hv : as obj.value with
      | none => simp [hv]
      | some v =>
          simp only [hv] at he
          rw [h v] at he
          contradiction

end KeyAction

theorem setAction_atomic (args : List Bytes) (now : TimePoint) :
    (setAction args now).Atomic := by
  unfold setAction
  refine Atomic.ite ?_
  cases setOptions (args.drop 2) {} with
  | error reply => exact atomic_idle reply
  | ok o =>
      refine Atomic.ite fun e he => ?_
      revert he
      dsimp only
      split
      · simp
      · split <;> simp

theorem expireAction_atomic (arity : Bytes) (add : TimePoint → Int64 → TimePoint)
    (args : List Bytes) (now : TimePoint) : (expireAction arity add args now).Atomic := by
  unfold expireAction
  refine Atomic.ite ?_
  cases parseInt (args.getD 1 []) with
  | none => exact atomic_idle _
  | some n =>
      intro e he
      cases e with
      | none => rfl
      | some obj => simp at he

theorem hSetAction_atomic (args : List Bytes) : (hSetAction args).Atomic :=
  Atomic.ite (atomic_create fun _ => isError_integer _)

theorem hDelAction_atomic (args : List Bytes) : (hDelAction args).Atomic :=
  Atomic.ite (atomic_remove fun _ => isError_integer _)

theorem pushAction_atomic (arity : Bytes) (push : RedisList → Bytes → RedisList)
    (args : List Bytes) : (pushAction arity push args).Atomic :=
  Atomic.ite (atomic_create fun _ => isError_integer _)

theorem sAddAction_atomic (args : List Bytes) : (sAddAction args).Atomic :=
  Atomic.ite (atomic_create fun _ => isError_integer _)

theorem sRemAction_atomic (args : List Bytes) : (sRemAction args).Atomic :=
  Atomic.ite (atomic_remove fun _ => isError_integer _)

theorem zRemAction_atomic (args : List Bytes) : (zRemAction args).Atomic :=
  Atomic.ite (atomic_remove fun _ => isError_integer _)

/-- What the pops reply is a bulk string or an array of them. -/
theorem isError_popReply (withCount : Bool) {result : List Bytes}
    (h : ∀ r ∈ result, isError r = false) : isError (popReply withCount result) = false := by
  cases withCount with
  | true => exact isError_array result
  | false =>
      cases result with
      | nil => rfl
      | cons r rest => exact h r (by simp)

theorem isError_of_mem_popLoop {pop : RedisList → Option (Bytes × RedisList)} {count : Nat}
    {lst : RedisList} {r : Bytes} (h : r ∈ (popLoop pop count lst).1) : isError r = false := by
  induction count generalizing lst with
  | zero => simp [popLoop] at h
  | succ count ih =>
      rw [popLoop] at h
      cases hp : pop lst with
      | none => simp [hp] at h
      | some x =>
          simp only [hp, List.mem_cons] at h
          rcases h with rfl | h
          · rfl
          · exact ih h

theorem isError_of_mem_sPopLoop {rng : Nat → Nat → Nat} {count i : Nat} {set : RedisSet}
    {r : Bytes} (h : r ∈ (sPopLoop rng count i set).1) : isError r = false := by
  induction count generalizing i set with
  | zero => simp [sPopLoop] at h
  | succ count ih =>
      rw [sPopLoop, List.mem_cons] at h
      rcases h with rfl | h
      · rfl
      · exact ih h

theorem popAction_atomic (arity : Bytes) (pop : RedisList → Option (Bytes × RedisList))
    (args : List Bytes) : (popAction arity pop args).Atomic := by
  unfold popAction
  refine Atomic.ite ?_
  cases (if args.length ≥ 2 then parseInt (args.getD 1 []) else some 1) with
  | none => exact atomic_idle _
  | some count =>
      exact Atomic.ite (atomic_remove fun lst =>
        isError_popReply _ fun r hr => isError_of_mem_popLoop hr)

theorem sPopAction_atomic (args : List Bytes) (rng : Nat → Nat → Nat) :
    (sPopAction args rng).Atomic := by
  unfold sPopAction
  refine Atomic.ite ?_
  cases sPopArg args with
  | none => exact atomic_idle _
  | some count =>
      exact atomic_remove fun set =>
        isError_popReply (decide (args.length ≥ 2)) fun r hr => isError_of_mem_sPopLoop hr

/-- Of the writing commands, only `ZADD` may change its entry and fail. -/
theorem writeActions_atomic : ∀ p ∈ writeActions,
    p = (ascii "ZADD", fun args _ rng => zAddAction args rng) ∨
      ∀ args now rng, (p.2 args now rng).Atomic := by
  simp only [writeActions, List.forall_mem_cons, List.not_mem_nil, false_imp_iff, implies_true,
    and_true]
  exact ⟨.inr fun args now _ => setAction_atomic args now,
    .inr fun args now _ => expireAction_atomic _ _ args now,
    .inr fun args now _ => expireAction_atomic _ _ args now,
    .inr fun args _ _ => hSetAction_atomic args, .inr fun args _ _ => hDelAction_atomic args,
    .inr fun args _ _ => pushAction_atomic _ _ args,
    .inr fun args _ _ => pushAction_atomic _ _ args,
    .inr fun args _ _ => popAction_atomic _ _ args, .inr fun args _ _ => popAction_atomic _ _ args,
    .inr fun args _ _ => sAddAction_atomic args, .inr fun args _ _ => sRemAction_atomic args,
    .inr fun args _ rng => sPopAction_atomic args rng, .inl trivial,
    .inr fun args _ _ => zRemAction_atomic args⟩

/-! ## `ZADD` -/

/-- The score texts of a `ZADD` with their members. -/
def scorePairs : List Bytes → List (Bytes × Bytes)
  | score :: member :: rest => (score, member) :: scorePairs rest
  | _ => []

/-- The pairs in front of the first score that is no number. -/
def readPairs (args : List Bytes) : List (Bytes × Bytes) :=
  (scorePairs args).takeWhile fun p => (parseDouble p.1).isSome

namespace SkipList

/-- The member of the pair has an equal score already, so `Insert` does nothing. -/
def HasPair (sl : SkipList) (p : Bytes × Bytes) : Prop :=
  ∃ old score, sl.getScore p.2 = some old ∧ parseDouble p.1 = some score ∧ old.eq score = true

end SkipList

theorem next_le_zAddLoop (rng : Nat → Nat → Nat) (args : List Bytes) (i : Nat) (sl : SkipList)
    (added : Nat) : sl.next ≤ (zAddLoop rng args i sl added).2.next := by
  fun_induction zAddLoop rng args i sl added with
  | case1 => exact le_rfl
  | case2 text member rest i sl added score hs existed ih =>
      refine le_trans ?_ ih
      rcases sl.insert_spec score member (randomLevel (rng i)) with ⟨-, h⟩ | ⟨-, h⟩
      · rw [h]
      · exact h ▸ Nat.le_succ sl.next
  | case3 => exact le_rfl

/-- `ZADD` fails when a score is no number. -/
theorem zAddLoop_fst_eq_none (rng : Nat → Nat → Nat) (args : List Bytes) (i : Nat)
    (sl : SkipList) (added : Nat) : (zAddLoop rng args i sl added).1 = none ↔
      ∃ p ∈ scorePairs args, parseDouble p.1 = none := by
  fun_induction zAddLoop rng args i sl added with
  | case1 text member rest i sl added hs => simp [scorePairs, hs]
  | case2 text member rest i sl added score hs existed ih =>
      rw [ih, scorePairs, List.exists_mem_cons_iff]
      simp [hs]
  | case3 args i sl added hargs => simp [scorePairs]

/-- The list is as before, if each pair read is one it has. -/
theorem zAddLoop_snd_eq_self (rng : Nat → Nat → Nat) (args : List Bytes) (i : Nat)
    (sl : SkipList) (added : Nat) : (zAddLoop rng args i sl added).2 = sl ↔
      ∀ p ∈ readPairs args, sl.HasPair p := by
  fun_induction zAddLoop rng args i sl added with
  | case1 text member rest i sl added hs => simp [readPairs, scorePairs, hs]
  | case2 text member rest i sl added score hs existed ih =>
      have hcons : readPairs (text :: member :: rest) = (text, member) :: readPairs rest := by
        simp [readPairs, scorePairs, hs]
      have hpair : sl.HasPair (text, member) ↔
          ∃ old, sl.getScore member = some old ∧ old.eq score = true := by
        simp [SkipList.HasPair, hs]
      rw [hcons, List.forall_mem_cons, hpair]
      rcases sl.insert_spec score member (randomLevel (rng i)) with ⟨hold, h⟩ | ⟨hnew, h⟩
      · rw [h] at ih ⊢
        rw [ih, and_iff_right hold]
      · -- a node has been allocated, and no later pair takes it back
        refine iff_of_false (fun heq => ?_) fun hp => hnew hp.1
        have hle := next_le_zAddLoop rng rest (i + 1)
          (sl.insert score member (randomLevel (rng i))).2 (if existed then added else added + 1)
        rw [heq, h] at hle
        exact Nat.not_succ_le_self sl.next hle
  | case3 args i sl added hargs => simp [readPairs, scorePairs]

/-! ## All commands -/

/-- **Failed commands are atomic**, for one command: when the reply is an error,
every entry is as before, or it was expired and is gone. -/
def FailsAtomically (ctx : CmdContext) : Prop :=
  isError (execute ctx).1 = true → ∀ k, (execute ctx).2.get k = ctx.db.get k ∨
    (execute ctx).2.get k = none ∧ ctx.db.HasExpired ctx.now k

/-- The command of `ctx` is a `ZADD` that some score stops, after it has created
its list or has linked a node for a pair in front of that score. -/
structure HalfApplied (ctx : CmdContext) : Prop where
  name : normalize ctx.cmd.name = ascii "ZADD"
  arity : 3 ≤ ctx.cmd.args.length ∧ ctx.cmd.args.length % 2 = 1
  stopped : ∃ p ∈ scorePairs (ctx.cmd.args.drop 1), parseDouble p.1 = none
  changed : ∀ obj, ctx.db.live ctx.now (ctx.arg 0) = some obj →
    ∃ sl, obj.value.asZSet = some sl ∧ ∃ p ∈ readPairs (ctx.cmd.args.drop 1), ¬ sl.HasPair p

/-- An action that leaves the live entry as it is. -/
theorem Performs.kept {f : Dict → Bytes × Dict} {now : TimePoint} {key : Bytes}
    {g : Option RedisObject → Bytes × Option RedisObject} (hf : Performs f now key (.act g))
    {db : Dict} (hg : (g (db.live now key)).2 = db.live now key) (k : Bytes) :
    (f db).2.get k = db.get k ∨ (f db).2.get k = none ∧ db.HasExpired now k := by
  rw [(hf db).2 k, hg]
  by_cases hk : k = key
  · rw [if_pos hk, hk]
    by_cases hx : db.HasExpired now key
    · exact .inr ⟨Dict.live_of_hasExpired hx, hx⟩
    · exact .inl (Dict.live_eq_get hx)
  · rw [if_neg hk]
    exact .inl rfl

/-- An atomic action, at an error. -/
theorem Performs.atomic {f : Dict → Bytes × Dict} {now : TimePoint} {key : Bytes} {a : KeyAction}
    (hf : Performs f now key a) (ha : a.Atomic) (db : Dict) (he : isError (f db).1 = true)
    (k : Bytes) : (f db).2.get k = db.get k ∨ (f db).2.get k = none ∧ db.HasExpired now k := by
  cases a with
  | idle reply =>
      rw [hf db]
      exact .inl rfl
  | act g =>
      rw [(hf db).1] at he
      exact hf.kept (ha _ he) k

/-- Every command but `ZADD` is atomic. -/
theorem failsAtomically_of_ne_zadd {ctx : CmdContext}
    (hname : normalize ctx.cmd.name ≠ ascii "ZADD") : FailsAtomically ctx := by
  unfold FailsAtomically
  cases hf : findHandler (normalize ctx.cmd.name) with
  | none =>
      rw [execute_of_not_found hf]
      exact fun _ _ => .inl rfl
  | some handler =>
      rw [execute_of_findHandler hf]
      obtain ⟨act, hact, ha⟩ | ⟨-, hr | ⟨-, rfl⟩ | ⟨-, rfl⟩ | ⟨-, rfl⟩⟩ := findHandler_spec hf
      · rcases writeActions_atomic _ (mem_of_lookup_eq_some hact) with h | h
        · exact absurd (congrArg Prod.fst h) hname
        · exact (ha ctx).atomic (h _ _ _) ctx.db
      · obtain ⟨a, ha, hro⟩ := hr ctx
        exact ha.atomic hro.atomic ctx.db
      · dsimp only [delCmd]
        split
        · exact fun _ _ => .inl rfl
        · exact fun he => absurd he (by simp)
      · dsimp only [existsCmd]
        split
        · exact fun _ _ => .inl rfl
        · exact fun he => absurd he (by simp)
      · dsimp only [keysCmd]
        split
        · exact fun _ _ => .inl rfl
        · exact fun he => absurd he (by simp [bulkArray])

/-- What `ZADD` does to a live entry when some score is no number. -/
def zAddStopped (args : List Bytes) (rng : Nat → Nat → Nat) (e : Option RedisObject) :
    Bytes × Option RedisObject :=
  match (e.getD RedisObject.createZSet).value.asZSet with
  | none => (wrongType, e)
  | some sl =>
    (RespCodec.error (ascii "ERR value is not a valid float"),
      some ((e.getD RedisObject.createZSet).withValue (.zset (zAddLoop rng (args.drop 1) 0 sl 0).2)))

theorem zAddAction_stopped {args : List Bytes} (rng : Nat → Nat → Nat)
    (harity : ¬ (args.length < 3 ∨ args.length % 2 ≠ 1))
    (hstop : ∃ p ∈ scorePairs (args.drop 1), parseDouble p.1 = none) :
    zAddAction args rng = .act (zAddStopped args rng) := by
  have hloop := fun sl => (zAddLoop_fst_eq_none rng (args.drop 1) 0 sl 0).mpr hstop
  rw [zAddAction, if_neg harity, create]
  congr 1
  funext e
  unfold zAddStopped
  cases (e.getD RedisObject.createZSet).value.asZSet with
  | none => rfl
  | some sl => simp only [hloop]

theorem asZSet_eq_some {v : ValueVariant} {sl : SkipList} :
    v.asZSet = some sl ↔ v = .zset sl := by
  cases v <;> simp [ValueVariant.asZSet]

theorem isError_zAddStopped (args : List Bytes) (rng : Nat → Nat → Nat)
    (e : Option RedisObject) : isError (zAddStopped args rng e).1 = true := by
  unfold zAddStopped
  split
  · exact isError_wrongType
  · exact isError_error _

/-- The list a stopped `ZADD` creates has no deadline. -/
theorem zAddStopped_none {args : List Bytes} {rng : Nat → Nat → Nat} {obj : RedisObject}
    (h : (zAddStopped args rng none).2 = some obj) : obj.expireAt = none := by
  cases h
  rfl

/-- A stopped `ZADD` keeps the live entry, if it has another type, or each pair read. -/
theorem zAddStopped_snd_eq (args : List Bytes) (rng : Nat → Nat → Nat) (e : Option RedisObject) :
    (zAddStopped args rng e).2 = e ↔
      ∃ obj, e = some obj ∧
        ∀ sl, obj.value.asZSet = some sl → ∀ p ∈ readPairs (args.drop 1), sl.HasPair p := by
  cases e with
  | none => simp [zAddStopped, RedisObject.createZSet, ValueVariant.asZSet]
  | some obj =>
      simp only [zAddStopped, Option.getD_some, Option.some.injEq, exists_eq_left']
      cases hv : obj.value.asZSet with
      | none => simp
      | some sl =>
          have hval := asZSet_eq_some.mp hv
          have hself := zAddLoop_snd_eq_self rng (args.drop 1) 0 sl 0
          simp only [Option.some.injEq, forall_eq', ← hself]
          constructor
          · intro h
            simpa [hval] using congrArg RedisObject.value h
          · intro h
            rw [h, ← hval, RedisObject.withValue_value]

/-- `ZADD` is atomic, unless it is half applied. -/
theorem zAddCmd_atomic_iff {ctx : CmdContext} (hname : normalize ctx.cmd.name = ascii "ZADD") :
    FailsAtomically ctx ↔ ¬ HalfApplied ctx := by
  have hf : findHandler (normalize ctx.cmd.name) = some zAddCmd := by
    rw [hname]
    rfl
  have hspec := zAddCmd_performs ctx
  have hexec : execute ctx = CmdHandler.on zAddCmd ctx ctx.db := execute_of_findHandler hf
  have hatomic : (zAddAction ctx.cmd.args ctx.rng).Atomic → FailsAtomically ctx := by
    rw [FailsAtomically, hexec]
    exact fun ha => hspec.atomic ha ctx.db
  by_cases harity : ctx.cmd.args.length < 3 ∨ ctx.cmd.args.length % 2 ≠ 1
  · refine iff_of_true (hatomic ?_) fun hx => ?_
    · rw [zAddAction, if_pos harity]
      trivial
    · have := hx.arity
      omega
  by_cases hstop : ∃ p ∈ scorePairs (ctx.cmd.args.drop 1), parseDouble p.1 = none
  · rw [zAddAction_stopped ctx.rng harity hstop] at hspec
    have hkeep := zAddStopped_snd_eq ctx.cmd.args ctx.rng (ctx.db.live ctx.now (ctx.arg 0))
    have hhalf : HalfApplied ctx ↔ ¬ (zAddStopped ctx.cmd.args ctx.rng
        (ctx.db.live ctx.now (ctx.arg 0))).2 = ctx.db.live ctx.now (ctx.arg 0) := by
      rw [hkeep]
      constructor
      · rintro hx ⟨obj, hobj, hall⟩
        obtain ⟨sl, hsl, p, hp, hn⟩ := hx.changed obj hobj
        exact hn (hall sl hsl p hp)
      · refine fun hx => ⟨hname, by omega, hstop, fun obj hobj => ?_⟩
        by_contra hall
        exact hx ⟨obj, hobj, fun sl hsl p hp => by_contra fun hn => hall ⟨sl, hsl, p, hp, hn⟩⟩
    rw [hhalf, not_not, FailsAtomically, hexec]
    refine ⟨fun h => ?_, fun h _ => hspec.kept h⟩
    obtain ⟨hr, hget⟩ := hspec ctx.db
    have hkey := h (hr ▸ isError_zAddStopped _ _ _) (ctx.arg 0)
    rw [hget, if_pos rfl] at hkey
    by_cases hx : ctx.db.HasExpired ctx.now (ctx.arg 0)
    · -- the new entry has no deadline, so it is not the expired one
      have hl := Dict.live_of_hasExpired hx
      rw [hl] at hkey ⊢
      rcases hkey with hkey | ⟨hkey, -⟩
      · obtain ⟨obj, hobj, he⟩ := hx
        rw [hobj] at hkey
        have hnone := RedisObject.isExpired_of_expireAt_none (zAddStopped_none hkey) ctx.now
        rw [hnone] at he
        contradiction
      · exact hkey
    · rcases hkey with hkey | ⟨-, hx'⟩
      · rw [hkey, Dict.live_eq_get hx]
      · exact absurd hx' hx
  · -- all scores are numbers: an error is not the loop's
    refine iff_of_true (hatomic ?_) fun hx => hstop hx.stopped
    rw [zAddAction, if_neg harity]
    refine atomic_create fun sl => ?_
    have hrun := mt (zAddLoop_fst_eq_none ctx.rng (ctx.cmd.args.drop 1) 0 sl 0).mp hstop
    obtain ⟨added, ha⟩ := Option.ne_none_iff_exists'.mp hrun
    simp only [ha, isError_integer]

/-- **Failed commands are atomic, except a half applied `ZADD`.** -/
theorem failsAtomically_iff (ctx : CmdContext) : FailsAtomically ctx ↔ ¬ HalfApplied ctx := by
  by_cases hname : normalize ctx.cmd.name = ascii "ZADD"
  · exact zAddCmd_atomic_iff hname
  · exact iff_of_true (failsAtomically_of_ne_zadd hname) fun hx => hname hx.name

/-- A `ZADD` on an empty key space that fails at its second score leaves the
first pair behind. -/
theorem zadd_half_applied :
    isError (execute ⟨∅, ⟨ascii "ZADD", [ascii "k", ascii "1", ascii "a", ascii "x",
        ascii "b"]⟩, 0, fun _ _ => 1⟩).1 = true ∧
      (((execute ⟨∅, ⟨ascii "ZADD", [ascii "k", ascii "1", ascii "a", ascii "x",
        ascii "b"]⟩, 0, fun _ _ => 1⟩).2.get (ascii "k")).bind fun obj =>
          obj.value.asZSet).map SkipList.size = some 1 ∧
      ¬ FailsAtomically ⟨∅, ⟨ascii "ZADD", [ascii "k", ascii "1", ascii "a", ascii "x",
        ascii "b"]⟩, 0, fun _ _ => 1⟩ := by
  refine ⟨by decide, by decide, fun h => ?_⟩
  have hk := h (by decide) (ascii "k")
  rw [Dict.get_empty] at hk
  rcases hk with hk | ⟨-, obj, hobj, -⟩
  · exact absurd (congrArg Option.isSome hk) (by decide)
  · rw [Dict.get_empty] at hobj
    contradiction

end RedisLike
