import RedisLike.Command.Cells

/-!
# RedisLike.Command.Typed

The writing commands for keys of one type.

Such a command does nothing to a key of another type (`Typed`).  On a hash, a
set or a sorted set it is a list of writes to the cells, which its arguments
determine; `writeActions_typed` says this of every entry of the table.
-/

namespace RedisLike

/-! ## The types of the commands -/

/-- The type of the commands for the keys of one type. -/
def commandTypes : List (Bytes × ObjType) :=
  [ (ascii "HSET", .hash), (ascii "HDEL", .hash),
    (ascii "LPUSH", .list), (ascii "RPUSH", .list), (ascii "LPOP", .list), (ascii "RPOP", .list),
    (ascii "SADD", .set), (ascii "SREM", .set), (ascii "SPOP", .set),
    (ascii "ZADD", .zset), (ascii "ZREM", .zset) ]

/-- The action does nothing, or finds no other type than `t` and leaves none. -/
def KeyAction.Typed (t : ObjType) (action : KeyAction) : Prop :=
  ∀ e, action.after e = e ∨
    (∀ obj, e = some obj → obj.value.objType = t) ∧
      ∀ obj, action.after e = some obj → obj.value.objType = t ∧ (Permanent e → obj.expireAt = none)

namespace KeyAction

theorem typed_idle {t : ObjType} (reply : Bytes) : (idle reply).Typed t := fun _ => .inl rfl

theorem Typed.ite {t : ObjType} {c : Prop} [Decidable c] {reply : Bytes} {action : KeyAction}
    (h : action.Typed t) : (if c then idle reply else action).Typed t := by
  split
  · exact typed_idle reply
  · exact h

section shapes

variable {α : Type} {t : ObjType} {as : ValueVariant → Option α}

theorem typed_create {fresh : RedisObject} {step : α → Bytes × ValueVariant}
    (has : ∀ v a, as v = some a → v.objType = t) (hstep : ∀ a, (step a).2.objType = t)
    (hfresh : fresh.expireAt = none) : (create as fresh step).Typed t := by
  intro e
  simp only [create, after]
  cases hv : as (e.getD fresh).value with
  | none => exact .inl rfl
  | some a =>
      refine .inr ⟨?_, ?_⟩
      · rintro obj rfl
        exact has _ a hv
      · rintro obj ⟨⟩
        refine ⟨hstep a, fun hperm => ?_⟩
        cases e with
        | none => exact hfresh
        | some obj => exact hperm obj rfl

theorem typed_remove {absent : Bytes} {step : α → Bytes × ValueVariant × Bool}
    (has : ∀ v a, as v = some a → v.objType = t) (hstep : ∀ a, (step a).2.1.objType = t) :
    (remove as absent step).Typed t := by
  intro e
  cases e with
  | none => exact .inl rfl
  | some obj =>
      simp only [remove, after]
      cases hv : as obj.value with
      | none => exact .inl rfl
      | some a =>
          refine .inr ⟨?_, ?_⟩
          · rintro obj' ⟨⟩
            exact has _ a hv
          · intro obj' hobj'
            simp only at hobj'
            split at hobj'
            · contradiction
            · cases hobj'
              exact ⟨hstep a, fun hperm => hperm obj rfl⟩

end shapes

end KeyAction

section typed

open KeyAction

theorem hSetAction_typed (args : List Bytes) : (hSetAction args).Typed .hash :=
  Typed.ite (typed_create (fun _ _ => objType_of_asHash) (fun _ => rfl) rfl)

theorem hDelAction_typed (args : List Bytes) : (hDelAction args).Typed .hash :=
  Typed.ite (typed_remove (fun _ _ => objType_of_asHash) fun _ => rfl)

theorem pushAction_typed (arity : Bytes) (push : RedisList → Bytes → RedisList)
    (args : List Bytes) : (pushAction arity push args).Typed .list :=
  Typed.ite (typed_create (fun _ _ => objType_of_asList) (fun _ => rfl) rfl)

theorem popAction_typed (arity : Bytes) (pop : RedisList → Option (Bytes × RedisList))
    (args : List Bytes) : (popAction arity pop args).Typed .list := by
  unfold popAction
  refine Typed.ite ?_
  cases (if args.length ≥ 2 then parseInt (args.getD 1 []) else some 1) with
  | none => exact typed_idle _
  | some count => exact Typed.ite (typed_remove (fun _ _ => objType_of_asList) fun _ => rfl)

theorem sAddAction_typed (args : List Bytes) : (sAddAction args).Typed .set :=
  Typed.ite (typed_create (fun _ _ => objType_of_asSet) (fun _ => rfl) rfl)

theorem sRemAction_typed (args : List Bytes) : (sRemAction args).Typed .set :=
  Typed.ite (typed_remove (fun _ _ => objType_of_asSet) fun _ => rfl)

theorem sPopAction_typed (args : List Bytes) (rng : Nat → Nat → Nat) :
    (sPopAction args rng).Typed .set := by
  unfold sPopAction
  refine Typed.ite ?_
  cases sPopArg args with
  | none => exact typed_idle _
  | some count => exact typed_remove (fun _ _ => objType_of_asSet) fun _ => rfl

theorem zAddAction_typed (args : List Bytes) (rng : Nat → Nat → Nat) :
    (zAddAction args rng).Typed .zset :=
  Typed.ite (typed_create (fun _ _ => objType_of_asZSet) (fun _ => rfl) rfl)

theorem zRemAction_typed (args : List Bytes) : (zRemAction args).Typed .zset :=
  Typed.ite (typed_remove (fun _ _ => objType_of_asZSet) fun _ => rfl)

end typed

/-! ## The writes of the commands on collections -/

/-- A pair follows the key. -/
theorem exists_drop_eq_cons_cons (args : List Bytes) (h : 3 ≤ args.length) :
    ∃ a b rest, args.drop 1 = a :: b :: rest := by
  rcases args with _ | ⟨key, _ | ⟨a, _ | ⟨b, rest⟩⟩⟩
  · exact absurd h (by simp)
  · exact absurd h (by simp)
  · exact absurd h (by simp)
  · exact ⟨a, b, rest, rfl⟩

theorem hSetAction_writes (args : List Bytes) : ∃ ws, hashes.Writes (hSetAction args) ws := by
  unfold hSetAction
  split
  · exact ⟨[], Collection.writes_idle _⟩
  · next h =>
    refine ⟨fieldWrites (args.drop 1), @Collection.writes_create _ _ hashes _ _ _ _ ∅ rfl trivial
      rfl (fun _ => rfl)
      (fun h _ => ⟨trivial, lookup_hSetLoop _ h 0⟩) ?_ fun _ => ne_none_of_mem_fieldWrites⟩
    obtain ⟨field, val, rest, hargs⟩ := exists_drop_eq_cons_cons args (by omega)
    rw [hargs, fieldWrites]
    exact List.cons_ne_nil _ _

theorem hDelAction_writes (args : List Bytes) : ∃ ws, hashes.Writes (hDelAction args) ws := by
  unfold hDelAction
  split
  · exact ⟨[], Collection.writes_idle _⟩
  · exact ⟨clears (args.drop 1), Collection.writes_remove (fun _ => rfl)
      (fun h _ => ⟨trivial, lookup_hDelLoop _ h 0⟩) fun _ => eq_none_of_mem_clears⟩

theorem sAddAction_writes (args : List Bytes) : ∃ ws, sets.Writes (sAddAction args) ws := by
  unfold sAddAction
  split
  · exact ⟨[], Collection.writes_idle _⟩
  · next h =>
    refine ⟨memberWrites (args.drop 1), @Collection.writes_create _ _ sets _ _ _ _ ∅ rfl trivial
      rfl (fun _ => rfl)
      (fun s _ => ⟨trivial, presence_sAddLoop _ s 0⟩) ?_ fun _ => ne_none_of_mem_memberWrites⟩
    rw [memberWrites, ne_eq, List.map_eq_nil_iff, List.drop_eq_nil_iff]
    omega

theorem sRemAction_writes (args : List Bytes) : ∃ ws, sets.Writes (sRemAction args) ws := by
  unfold sRemAction
  split
  · exact ⟨[], Collection.writes_idle _⟩
  · exact ⟨clears (args.drop 1), Collection.writes_remove (fun _ => rfl)
      (fun s _ => ⟨trivial, presence_sRemLoop _ s 0⟩) fun _ => eq_none_of_mem_clears⟩

/-- Every score is a number, and no NaN. -/
def GoodScores (args : List Bytes) : Prop :=
  ∀ p ∈ scorePairs args, ∃ s, parseDouble p.1 = some s ∧ s.isNaN = false

theorem GoodScores.noNaN {args : List Bytes} (h : GoodScores args) : NoNaN (scoreWrites args) := by
  fun_induction scoreWrites args with
  | case1 => exact fun w hw => absurd hw List.not_mem_nil
  | case2 text member rest s hs ih =>
      rw [GoodScores, scorePairs, List.forall_mem_cons] at h
      refine List.forall_mem_cons.mpr ⟨?_, ih h.2⟩
      rintro s' ⟨⟩
      obtain ⟨s', hs', hnan⟩ := h.1
      rw [hs] at hs'
      cases hs'
      exact hnan
  | case3 => exact fun w hw => absurd hw List.not_mem_nil

theorem zAddAction_writes (args : List Bytes)
    (h : 3 ≤ args.length → args.length % 2 = 1 → GoodScores (args.drop 1)) :
    ∃ ws, ∀ rng, sortedSets.Writes (zAddAction args rng) ws := by
  unfold zAddAction
  by_cases harity : args.length < 3 ∨ args.length % 2 ≠ 1
  · simp only [if_pos harity]
    exact ⟨[], fun _ => Collection.writes_idle _⟩
  · simp only [if_neg harity]
    have hscores := h (by omega) (by omega)
    refine ⟨scoreWrites (args.drop 1), fun rng => @Collection.writes_create _ _ sortedSets _ _ _ _
      .new rfl SkipList.valid_new rfl (fun _ => rfl)
      (fun sl hv => zAddLoop_spec rng _ 0 0 hv hscores.noNaN) ?_
      fun _ => ne_none_of_mem_scoreWrites⟩
    obtain ⟨text, member, rest, hargs⟩ := exists_drop_eq_cons_cons args (by omega)
    rw [hargs, GoodScores, scorePairs, List.forall_mem_cons] at hscores
    obtain ⟨s, hs, -⟩ := hscores.1
    simp [hargs, scoreWrites, hs]

theorem zRemAction_writes (args : List Bytes) : ∃ ws, sortedSets.Writes (zRemAction args) ws := by
  unfold zRemAction
  split
  · exact ⟨[], Collection.writes_idle _⟩
  · exact ⟨clears (args.drop 1), Collection.writes_remove (fun _ => rfl)
      (fun sl hv => zRemLoop_spec _ 0 hv) fun _ => eq_none_of_mem_clears⟩

/-- What a replay of a command for keys of one type can rely on: its effect
depends on the arguments alone; for a collection, it is a list of writes to the
cells.  `SPOP` draws its members, and `ZADD` has to have good scores. -/
def Replays (name : Bytes) (act : List Bytes → TimePoint → (Nat → Nat → Nat) → KeyAction) :
    ObjType → Prop
  | .string => False
  | .list => ∀ args now now' rng rng', act args now rng = act args now' rng'
  | .hash => ∀ args, ∃ ws, ∀ now rng, hashes.Writes (act args now rng) ws
  | .set => name ≠ ascii "SPOP" → ∀ args, ∃ ws, ∀ now rng, sets.Writes (act args now rng) ws
  | .zset => ∀ args,
    (name = ascii "ZADD" → 3 ≤ args.length → args.length % 2 = 1 → GoodScores (args.drop 1)) →
      ∃ ws, ∀ now rng, sortedSets.Writes (act args now rng) ws

/-- The writing commands for keys of any type. -/
def untyped : List Bytes := [ascii "SET", ascii "EXPIRE", ascii "PEXPIRE"]

/-- **The writing commands by their types.** -/
theorem writeActions_typed : ∀ p ∈ writeActions, p.1 ∈ untyped ∨
    ∃ t, commandTypes.lookup p.1 = some t ∧
      (∀ args now rng, (p.2 args now rng).Typed t) ∧ Replays p.1 p.2 t := by
  simp only [writeActions, List.forall_mem_cons, List.not_mem_nil, false_imp_iff, implies_true,
    and_true]
  exact ⟨.inl (by decide), .inl (by decide), .inl (by decide),
    .inr ⟨.hash, rfl, fun args _ _ => hSetAction_typed args,
      fun args => (hSetAction_writes args).imp fun _ h _ _ => h⟩,
    .inr ⟨.hash, rfl, fun args _ _ => hDelAction_typed args,
      fun args => (hDelAction_writes args).imp fun _ h _ _ => h⟩,
    .inr ⟨.list, rfl, fun args _ _ => pushAction_typed _ _ args, fun _ _ _ _ _ => rfl⟩,
    .inr ⟨.list, rfl, fun args _ _ => pushAction_typed _ _ args, fun _ _ _ _ _ => rfl⟩,
    .inr ⟨.list, rfl, fun args _ _ => popAction_typed _ _ args, fun _ _ _ _ _ => rfl⟩,
    .inr ⟨.list, rfl, fun args _ _ => popAction_typed _ _ args, fun _ _ _ _ _ => rfl⟩,
    .inr ⟨.set, rfl, fun args _ _ => sAddAction_typed args,
      fun _ args => (sAddAction_writes args).imp fun _ h _ _ => h⟩,
    .inr ⟨.set, rfl, fun args _ _ => sRemAction_typed args,
      fun _ args => (sRemAction_writes args).imp fun _ h _ _ => h⟩,
    .inr ⟨.set, rfl, fun args _ rng => sPopAction_typed args rng, fun h => absurd rfl h⟩,
    .inr ⟨.zset, rfl, fun args _ rng => zAddAction_typed args rng,
      fun args h => (zAddAction_writes args (h rfl)).imp fun _ h _ rng => h rng⟩,
    .inr ⟨.zset, rfl, fun args _ _ => zRemAction_typed args,
      fun args _ => (zRemAction_writes args).imp fun _ h _ _ => h⟩⟩

end RedisLike
