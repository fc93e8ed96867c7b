import RedisLike.Command.Table

/-!
# RedisLike.Command.Local

Commands addressed to one key, as actions on the entry of that key.

A `KeyAction` is the purpose of such a command without the key space: either a
fixed reply, or a function from the entry that is live at the time of the
command to the reply and the new entry.  `Performs` connects it to the handler:
the handler replies so, leaves the entry so, and touches no other key.

Every handler but those of `DEL`, `EXISTS` and `KEYS` performs an action; the
ones that only read perform a `ReadOnly` one.
-/

namespace RedisLike

/-! ## Actions -/

/-- What a command does to the entry of its key. -/
inductive KeyAction where
  /-- The command does not look at the key space. -/
  | idle (reply : Bytes)
  /-- The reply and the new entry, from the live entry. -/
  | act (f : Option RedisObject → Bytes × Option RedisObject)

/-- `f` performs the action on the entry of `key`, as live at `now`. -/
def Performs (f : Dict → Bytes × Dict) (now : TimePoint) (key : Bytes) : KeyAction → Prop
  | .idle reply => ∀ db, f db = (reply, db)
  | .act g => ∀ db, (f db).1 = (g (db.live now key)).1 ∧
      ∀ k, (f db).2.get k = if k = key then (g (db.live now key)).2 else db.get k

/-- A handler as a function of the `Dict`. -/
def CmdHandler.on (h : CmdHandler) (ctx : CmdContext) : Dict → Bytes × Dict :=
  fun db => h { ctx with db := db }

/-- An error reply, from its first byte. -/
def isError (reply : Bytes) : Bool := reply.head? = some 45

namespace KeyAction

/-- The entry stays as it is. -/
def ReadOnly : KeyAction → Prop
  | idle _ => True
  | act g => ∀ e, (g e).2 = e

/-- The entry stays as it is when the reply is an error. -/
def Atomic : KeyAction → Prop
  | idle _ => True
  | act g => ∀ e, isError (g e).1 = true → (g e).2 = e

/-- An object of another type than `t` gets the reply of a missing key. -/
def Blind (t : ObjType) : KeyAction → Prop
  | idle _ => True
  | act g => ∀ obj : RedisObject, obj.value.objType ≠ t → (g (some obj)).1 = (g none).1

theorem ReadOnly.atomic {a : KeyAction} (h : a.ReadOnly) : a.Atomic := by
  cases a with
  | idle r => trivial
  | act g => exact fun e _ => h e

/-- A command that reads an object of one type. -/
def read {α : Type} (as : ValueVariant → Option α) (absent : Bytes) (present : α → Bytes) :
    KeyAction :=
  .act fun e =>
    (match e.bind fun obj => as obj.value with
      | none => absent
      | some v => present v, e)

theorem blind_read {α : Type} {t : ObjType} {as : ValueVariant → Option α} {absent : Bytes}
    {present : α → Bytes} (has : ∀ v a, as v = some a → v.objType = t) :
    (read as absent present).Blind t := by
  intro obj hobj
  simp only [Option.bind_some, Option.bind_none]
  cases hv : as obj.value with
  | none => rfl
  | some a => exact absurd (has _ a hv) hobj

/-- A command that changes an object of one type, or a `fresh` one for a
missing key: `step` is the reply and the new value. -/
def create {α : Type} (as : ValueVariant → Option α) (fresh : RedisObject)
    (step : α → Bytes × ValueVariant) : KeyAction :=
  .act fun e =>
    match as (e.getD fresh).value with
    | none => (wrongType, e)
    | some v => ((step v).1, some ((e.getD fresh).withValue (step v).2))

/-- A command that takes elements out of an object of one type: `step` is the
reply, the new value and whether it is empty, which deletes the key. -/
def remove {α : Type} (as : ValueVariant → Option α) (absent : Bytes)
    (step : α → Bytes × ValueVariant × Bool) : KeyAction :=
  .act fun e =>
    match e with
    | none => (absent, none)
    | some obj =>
      match as obj.value with
      | none => (absent, some obj)
      | some v =>
        ((step v).1, if (step v).2.2 then none else some (obj.withValue (step v).2.1))

end KeyAction

/-! ## The shapes of the handlers -/

section shapes

variable {α : Type} {as : ValueVariant → Option α} {ctx : CmdContext} {key : Bytes}

theorem get_checkExpire (ctx : CmdContext) (key k : Bytes) :
    (ctx.checkExpire key).get k = if k = key then ctx.db.live ctx.now key else ctx.db.get k :=
  Dict.get_lazyCheck ctx.db key ctx.now k

theorem get_checkExpire_self (ctx : CmdContext) (key : Bytes) :
    (ctx.checkExpire key).get key = ctx.db.live ctx.now key :=
  Dict.get_lazyCheck_self ctx.db key ctx.now

theorem getObject_eq (as : ValueVariant → Option α) (ctx : CmdContext) (key : Bytes) :
    getObject as ctx key = ((ctx.db.live ctx.now key).bind fun obj =>
      (as obj.value).map fun v => (obj, v), ctx.checkExpire key) := by
  unfold getObject
  simp only
  rw [get_checkExpire_self]
  cases ctx.db.live ctx.now key <;> rfl

theorem getOrCreateObject_eq (as : ValueVariant → Option α) (fresh : RedisObject)
    (ctx : CmdContext) (key : Bytes) :
    getOrCreateObject as fresh ctx key =
      ((as ((ctx.db.live ctx.now key).getD fresh).value).map fun v =>
        ((ctx.db.live ctx.now key).getD fresh, v),
      match ctx.db.live ctx.now key with
      | none => (ctx.checkExpire key).set key fresh
      | some _ => ctx.checkExpire key) := by
  unfold getOrCreateObject
  simp only
  rw [get_checkExpire_self]
  cases ctx.db.live ctx.now key <;> rfl

/-- A handler that reads an object. -/
theorem performs_read (absent : Bytes) (present : α → Bytes) :
    Performs (fun db => readObject as { ctx with db := db } key absent present) ctx.now key
      (.read as absent present) := by
  intro db
  have hall := get_checkExpire { ctx with db := db } key
  simp only [readObject, orReply, getObject_eq]
  cases hl : db.live ctx.now key with
  | none => exact ⟨rfl, fun k => by simp [hall, hl]⟩
  | some obj =>
      cases hv : as obj.value with
      | none => exact ⟨by simp [hv], fun k => by simp [hv, hall, hl]⟩
      | some v => exact ⟨by simp [hv], fun k => by simp [hv, hall, hl]⟩

/-- A handler that gets or creates an object and writes its value back. -/
theorem performs_create {f : Dict → Bytes × Dict} {fresh : RedisObject}
    {step : α → Bytes × ValueVariant}
    (hf : f = fun db =>
      orReply (getOrCreateObject as fresh { ctx with db := db } key) wrongType fun obj v db =>
        ((step v).1, db.set key (obj.withValue (step v).2)))
    (hfresh : (as fresh.value).isSome) :
    Performs f ctx.now key (.create as fresh step) := by
  subst hf
  intro db
  have hall := get_checkExpire { ctx with db := db } key
  simp only [orReply, getOrCreateObject_eq]
  cases hl : db.live ctx.now key with
  | none =>
      obtain ⟨v, hv⟩ := Option.isSome_iff_exists.mp hfresh
      refine ⟨by simp [hv], fun k => ?_⟩
      by_cases hk : k = key <;> simp [hv, Dict.get_set, hall, hk]
  | some obj =>
      cases hv : as obj.value with
      | none => exact ⟨by simp [hv], fun k => by simp [hv, hall, hl]⟩
      | some v =>
          refine ⟨by simp [hv], fun k => ?_⟩
          by_cases hk : k = key <;> simp [hv, Dict.get_set, hall, hk]

/-- A handler that takes elements out of an object and deletes it when empty. -/
theorem performs_remove {f : Dict → Bytes × Dict} {absent : Bytes}
    {step : α → Bytes × ValueVariant × Bool}
    (hf : f = fun db =>
      orReply (getObject as { ctx with db := db } key) absent fun obj v db =>
        ((step v).1,
          if (step v).2.2 then ((db.set key (obj.withValue (step v).2.1)).del key).2
          else db.set key (obj.withValue (step v).2.1))) :
    Performs f ctx.now key (.remove as absent step) := by
  subst hf
  intro db
  have hall := get_checkExpire { ctx with db := db } key
  simp only [orReply, getObject_eq]
  cases hl : db.live ctx.now key with
  | none => exact ⟨rfl, fun k => by simp [hall, hl]⟩
  | some obj =>
      cases hv : as obj.value with
      | none => exact ⟨by simp [hv], fun k => by simp [hv, hall, hl]⟩
      | some v =>
          refine ⟨by simp [hv], fun k => ?_⟩
          by_cases he : (step v).2.2 = true
          · by_cases hk : k = key <;> simp [hv, he, Dict.get_del, Dict.get_set, hall, hk]
          · by_cases hk : k = key <;> simp [hv, he, Dict.get_set, hall, hk]

end shapes

end RedisLike
