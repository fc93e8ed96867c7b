import RedisLike.Lib.Batch
import RedisLike.Command.NonEmpty

/-!
# RedisLike.Command.Singles

Commands with one item each, one after another.

All the commands of such a run are for one key, so the run is one over the
entries of that key (`runEach_performs`).  Under `create` and `remove` it is one
over the values: the handlers look the key up again every time, and the value
they find is the one the command before has left (`Kind.exists_created`,
`Kind.exists_removed`).
-/

namespace RedisLike

open Batch KeyAction

/-! ## Runs -/

/-- The arguments of an item, and the random words for a command that has it alone. -/
abbrev Item := List Bytes × (Nat → Nat → Nat)

/-- The command `name` for one item, behind the arguments `front`. -/
def executeItem (now : TimePoint) (name : Bytes) (front : List Bytes) (x : Item) (db : Dict) :
    Bytes × Dict :=
  execute ⟨db, ⟨name, front ++ x.1⟩, now, x.2⟩

/-- The command `name` for all items. -/
def executeAll (now : TimePoint) (name : Bytes) (front : List Bytes) (rng : Nat → Nat → Nat)
    (items : List Item) (db : Dict) : Bytes × Dict :=
  execute ⟨db, ⟨name, front ++ items.flatMap Prod.fst⟩, now, rng⟩

/-- The reply and the new entry. -/
def KeyAction.run : KeyAction → Option RedisObject → Bytes × Option RedisObject
  | idle reply, e => (reply, e)
  | act g, e => g e

/-- What the command does to its key, for a writing command. -/
theorem performs_execute {name : Bytes}
    {action : List Bytes → TimePoint → (Nat → Nat → Nat) → KeyAction}
    (h : writeActions.lookup (normalize name) = some action) (args : List Bytes) (now : TimePoint)
    (rng : Nat → Nat → Nat) :
    Performs (fun db => execute ⟨db, ⟨name, args⟩, now, rng⟩) now (args.getD 0 [])
      (action args now rng) := by
  obtain ⟨handler, hf⟩ := Option.isSome_iff_exists.mp
    (isSome_findHandler_of_writeActions (Option.isSome_iff_exists.mpr ⟨action, h⟩))
  have hexec : (fun db => execute ⟨db, ⟨name, args⟩, now, rng⟩) =
      CmdHandler.on handler ⟨∅, ⟨name, args⟩, now, rng⟩ :=
    funext fun db => execute_of_findHandler hf
  rw [hexec]
  obtain ⟨act, hact, hperf⟩ | ⟨hnone, -⟩ := findHandler_spec hf
  · obtain rfl : act = action := Option.some.inj (hact.symm.trans h)
    exact hperf _
  · rw [h] at hnone
    contradiction

/-- **A run on one key.**  `step` is what the commands do to its values, and
`view` shows the entry of a value; the first command may find another entry than
those, on which it does the same. -/
theorem runEach_performs {α ν : Type} {now : TimePoint} {key : Bytes} {items : List Item}
    {f : Item → Dict → Bytes × Dict} {action : Item → Option RedisObject → Bytes × Option RedisObject}
    {step : Item → α → ν × α} {view : α → Option RedisObject} {reply : ν → Bytes} {Ok : α → Prop}
    (hperf : ∀ x ∈ items, Performs (f x) now key (.act (action x)))
    (hstep : ∀ x ∈ items, ∀ v, Ok v →
      action x (view v) = (reply (step x v).1, view (step x v).2) ∧ Ok (step x v).2)
    (hlive : ∀ v, liveEntry now (view v) = view v) {db : Dict} {v : α} (hv : Ok v)
    (hfirst : ∀ x ∈ items, action x (db.live now key) = action x (view v)) (hne : items ≠ []) :
    (runEach f items db).1 = (runEach step items v).1.map reply ∧
      ∀ k, (runEach f items db).2.get k =
        if k = key then view (runEach step items v).2 else db.get k := by
  cases items with
  | nil => contradiction
  | cons x xs =>
      rw [List.forall_mem_cons] at hperf hstep hfirst
      obtain ⟨hreply, hget⟩ := hperf.1 db
      rw [hfirst.1, (hstep.1 v hv).1] at hreply hget
      -- from here on the commands find the entry of a value
      have hsim := @runEach_sim _ _ _ _ _ step f reply
        (fun v d => Ok v ∧ ∀ k, d.get k = if k = key then view v else db.get k) xs
        (fun y hy v d hd => by
          obtain ⟨hreply, hget⟩ := hperf.2 y hy d
          have hentry : d.live now key = view v := by rw [Dict.live, hd.2, if_pos rfl, hlive]
          rw [hentry, (hstep.2 y hy v hd.1).1] at hreply hget
          refine ⟨hreply, (hstep.2 y hy v hd.1).2, fun k => ?_⟩
          rw [hget, hd.2]
          by_cases hk : k = key <;> simp [hk])
        (step x v).2 (f x db).2 ⟨(hstep.1 v hv).2, hget⟩
      obtain ⟨hreplies, -, hlast⟩ := hsim
      simp only [runEach_cons, List.map_cons, hreply, hreplies]
      exact ⟨trivial, hlast⟩

/-! ## Values of one type -/

/-- A type of value, as `As` finds it in a variant. -/
structure Kind (α : Type) where
  type : ObjType
  as : ValueVariant → Option α
  wrap : α → ValueVariant
  as_wrap : ∀ a, as (wrap a) = some a
  exists_wrap : ∀ v, v.objType = type → ∃ a, v = wrap a

/-- The type of a collection. -/
def Collection.kind {α β : Type} (C : Collection α β) : Kind α where
  type := C.type
  as := C.as
  wrap := C.wrap
  as_wrap a := (C.as_eq_some _ a).mpr rfl
  exists_wrap := C.exists_wrap

/-- Lists. -/
def lists : Kind RedisList where
  type := .list
  as := ValueVariant.asList
  wrap := .list
  as_wrap _ := rfl
  exists_wrap v h := by
    cases v with
    | list a => exact ⟨a, rfl⟩
    | _ => cases h

/-- The key is missing or expired, or its object is of the type. -/
def Dict.LiveOfType (db : Dict) (now : TimePoint) (key : Bytes) (t : ObjType) : Prop :=
  ∀ obj, db.live now key = some obj → obj.value.objType = t

@[simp] theorem RedisObject.withValue_withValue (obj : RedisObject) (v v' : ValueVariant) :
    (obj.withValue v).withValue v' = obj.withValue v' := rfl

theorem liveEntry_withValue {now : TimePoint} {obj : RedisObject}
    (h : obj.isExpired now = false) (v : ValueVariant) :
    liveEntry now (some (obj.withValue v)) = some (obj.withValue v) :=
  liveEntry_eq_some.mpr ⟨rfl, h⟩

namespace Kind

variable {α : Type} (K : Kind α) {db : Dict} {now : TimePoint} {key : Bytes}

/-- The object `obj` with this value. -/
def created (obj : RedisObject) (a : α) : Option RedisObject := some (obj.withValue (K.wrap a))

/-- The object `obj` with this value, which is deleted when it is empty. -/
def kept (empty : α → Bool) (obj : RedisObject) (a : α) : Option RedisObject :=
  if empty a then none else some (obj.withValue (K.wrap a))

theorem run_created (fresh : RedisObject) (step : α → Bytes × ValueVariant) (obj : RedisObject)
    (a : α) : (KeyAction.create K.as fresh step).run (K.created obj a) =
      ((step a).1, some (obj.withValue (step a).2)) := by
  simp [KeyAction.run, KeyAction.create, created, K.as_wrap]

theorem run_kept (absent : Bytes) (step : α → Bytes × ValueVariant × Bool) {empty : α → Bool}
    (obj : RedisObject) (a : α) : (KeyAction.remove K.as absent step).run (K.kept empty obj a) =
      if empty a then (absent, none)
      else ((step a).1, if (step a).2.2 then none else some (obj.withValue (step a).2.1)) := by
  by_cases he : empty a = true <;> simp [KeyAction.run, KeyAction.remove, kept, K.as_wrap, he]

/-- What a creating command finds: an object, or else it makes the fresh one. -/
theorem exists_created (hlive : db.LiveOfType now key K.type) (a₀ : α) :
    ∃ obj a, obj.isExpired now = false ∧
      (a = a₀ ∨ db.live now key = some (obj.withValue (K.wrap a))) ∧
      ∀ step, (KeyAction.create K.as (.create (K.wrap a₀)) step).run (db.live now key) =
        (KeyAction.create K.as (.create (K.wrap a₀)) step).run (K.created obj a) := by
  cases he : db.live now key with
  | none =>
      refine ⟨.create (K.wrap a₀), a₀, rfl, .inl rfl, fun step => ?_⟩
      rw [run_created]
      simp [KeyAction.run, KeyAction.create, K.as_wrap]
  | some obj =>
      obtain ⟨a, ha⟩ := K.exists_wrap obj.value (hlive obj he)
      have hobj : obj.withValue (K.wrap a) = obj := by rw [← ha, RedisObject.withValue_value]
      refine ⟨obj, a, (liveEntry_eq_some.mp he).2, .inr (congrArg some hobj.symm), fun step => ?_⟩
      rw [created, hobj]

/-- What a removing command finds: a missing key is one with an empty value. -/
theorem exists_removed {empty : α → Bool} (hlive : db.LiveOfType now key K.type) {a₀ : α}
    (hempty : empty a₀ = true)
    (hfilled : ∀ obj a, db.live now key = some obj → obj.value = K.wrap a → empty a = false) :
    ∃ obj a, obj.isExpired now = false ∧
      (a = a₀ ∨ db.live now key = some (obj.withValue (K.wrap a))) ∧
      db.live now key = K.kept empty obj a := by
  cases he : db.live now key with
  | none =>
      refine ⟨.create (K.wrap a₀), a₀, rfl, .inl rfl, ?_⟩
      rw [kept, if_pos hempty]
  | some obj =>
      obtain ⟨a, ha⟩ := K.exists_wrap obj.value (hlive obj he)
      have hobj : obj.withValue (K.wrap a) = obj := by rw [← ha, RedisObject.withValue_value]
      refine ⟨obj, a, (liveEntry_eq_some.mp he).2, .inr (congrArg some hobj.symm), ?_⟩
      rw [kept, hfilled obj a he ha, if_neg Bool.false_ne_true, hobj]

theorem liveEntry_kept {obj : RedisObject} (h : obj.isExpired now = false) (empty : α → Bool)
    (a : α) : liveEntry now (K.kept empty obj a) = K.kept empty obj a := by
  unfold kept
  split
  · rfl
  · exact liveEntry_withValue h _

end Kind

/-! ## At once and one after another -/

/-- The command for all items leaves what the commands for one item each leave, and
replies the sum of their replies, whatever random words they get. -/
def SumsUp (now : TimePoint) (name : Bytes) (front : List Bytes) (items : List Item)
    (db : Dict) : Prop :=
  ∀ rng,
    (executeAll now name front rng items db).2.Same
        (runEach (executeItem now name front) items db).2 ∧
      ∃ ns : List Nat,
        (runEach (executeItem now name front) items db).1 =
            ns.map (fun n : Nat => RespCodec.integer n) ∧
          (executeAll now name front rng items db).1 = RespCodec.integer ns.sum

/-- The same, but the reply is the last one. -/
def RepliesLast (now : TimePoint) (name : Bytes) (front : List Bytes) (items : List Item)
    (db : Dict) : Prop :=
  ∀ rng,
    (executeAll now name front rng items db).2.Same
        (runEach (executeItem now name front) items db).2 ∧
      (runEach (executeItem now name front) items db).1.getLast? =
        some (executeAll now name front rng items db).1

theorem rel_same_refl (e : Option RedisObject) : Option.Rel RedisObject.Same e e := by
  cases e with
  | none => exact .none
  | some obj => exact .some (.refl obj)

/-- Key spaces that agree outside of `key`. -/
theorem Dict.same_of_get {db db₁ db₂ : Dict} {key : Bytes} {e₁ e₂ : Option RedisObject}
    (h₁ : ∀ k, db₁.get k = if k = key then e₁ else db.get k)
    (h₂ : ∀ k, db₂.get k = if k = key then e₂ else db.get k)
    (h : Option.Rel RedisObject.Same e₁ e₂) : db₁.Same db₂ := by
  intro k
  rw [h₁, h₂]
  by_cases hk : k = key
  · simpa only [if_pos hk] using h
  · simpa only [if_neg hk] using rel_same_refl _

theorem RedisObject.withValue_same {obj : RedisObject} {v v' : ValueVariant} (h : v.Same v') :
    (obj.withValue v).Same (obj.withValue v') := RedisObject.same_iff.mpr ⟨h, rfl⟩

section shapes

variable {α ν : Type} (K : Kind α) {now : TimePoint} {name key : Bytes} {items : List Item}
  {db : Dict} {fAll : Dict → Bytes × Dict} (step : Item → α → ν × α) (reply : ν → Bytes)
  {Ok : α → Prop} {a₀ : α}

/-- Commands that create. -/
theorem Kind.created_spec {stAll : α → Bytes × ValueVariant}
    {stOne : Item → α → Bytes × ValueVariant}
    (hall : Performs fAll now key (.create K.as (.create (K.wrap a₀)) stAll))
    (hone : ∀ x ∈ items, Performs (executeItem now name [key] x) now key
      (.create K.as (.create (K.wrap a₀)) (stOne x)))
    (hstep : ∀ x ∈ items, ∀ a, Ok a →
      stOne x a = (reply (step x a).1, K.wrap (step x a).2) ∧ Ok (step x a).2)
    (hlive : db.LiveOfType now key K.type) (ha₀ : Ok a₀)
    (hok : ∀ (obj : RedisObject) (a : α), db.live now key = some (obj.withValue (K.wrap a)) → Ok a)
    (hne : items ≠ []) :
    ∃ a, Ok a ∧ (fAll db).1 = (stAll a).1 ∧
      (runEach (executeItem now name [key]) items db).1 = (runEach step items a).1.map reply ∧
      ((stAll a).2.Same (K.wrap (runEach step items a).2) →
        (fAll db).2.Same (runEach (executeItem now name [key]) items db).2) := by
  obtain ⟨obj, a, hobj, ha, hfirst⟩ := K.exists_created hlive a₀
  have haOk : Ok a := by
    obtain rfl | hentry := ha
    · exact ha₀
    · exact hok obj a hentry
  have hone' : ∀ x ∈ items, Performs (executeItem now name [key] x) now key
      (.act (KeyAction.create K.as (.create (K.wrap a₀)) (stOne x)).run) := hone
  have hrun : ∀ x ∈ items, ∀ a, Ok a →
      (KeyAction.create K.as (.create (K.wrap a₀)) (stOne x)).run (K.created obj a) =
        (reply (step x a).1, K.created obj (step x a).2) ∧ Ok (step x a).2 := by
    intro x hx a' ha'
    rw [K.run_created, (hstep x hx a' ha').1]
    exact ⟨rfl, (hstep x hx a' ha').2⟩
  obtain ⟨hreplies, heach⟩ := runEach_performs hone' hrun (fun a => liveEntry_withValue hobj _)
    haOk (fun x _ => hfirst (stOne x)) hne
  have hall' : Performs fAll now key
      (.act (KeyAction.create K.as (.create (K.wrap a₀)) stAll).run) := hall
  obtain ⟨hreply, hget⟩ := hall' db
  rw [hfirst, K.run_created] at hreply hget
  exact ⟨a, haOk, hreply, hreplies, fun hsame =>
    Dict.same_of_get hget heach (.some (RedisObject.withValue_same hsame))⟩

/-- Commands that remove, and delete what is empty. -/
theorem Kind.removed_spec {empty : α → Bool} {absent absentAll : Bytes} {z : ν}
    {stAll : α → Bytes × ValueVariant × Bool} {stOne : Item → α → Bytes × ValueVariant × Bool}
    (hall : Performs fAll now key (.remove K.as absentAll stAll))
    (hone : ∀ x ∈ items, Performs (executeItem now name [key] x) now key
      (.remove K.as absent (stOne x)))
    (hstep : ∀ x ∈ items, ∀ a, Ok a →
      stOne x a = (reply (step x a).1, K.wrap (step x a).2, empty (step x a).2) ∧ Ok (step x a).2)
    (hidle : ∀ x ∈ items, ∀ a, Ok a → empty a = true → step x a = (z, a)) (hz : reply z = absent)
    (hlive : db.LiveOfType now key K.type) (ha₀ : Ok a₀) (hempty : empty a₀ = true)
    (hok : ∀ (obj : RedisObject) (a : α), db.live now key = some (obj.withValue (K.wrap a)) → Ok a)
    (hfilled : ∀ obj a, db.live now key = some obj → obj.value = K.wrap a → empty a = false)
    (hne : items ≠ []) :
    ∃ obj a, Ok a ∧ db.live now key = K.kept empty obj a ∧
      (fAll db).1 = (if empty a then absentAll else (stAll a).1) ∧
      (runEach (executeItem now name [key]) items db).1 = (runEach step items a).1.map reply ∧
      ((stAll a).2 = (K.wrap (runEach step items a).2, empty (runEach step items a).2) →
        (fAll db).2.Same (runEach (executeItem now name [key]) items db).2) := by
  obtain ⟨obj, a, hobj, ha, hentry⟩ := K.exists_removed hlive hempty hfilled
  have haOk : Ok a := by
    obtain rfl | hentry := ha
    · exact ha₀
    · exact hok obj a hentry
  have hone' : ∀ x ∈ items, Performs (executeItem now name [key] x) now key
      (.act (KeyAction.remove K.as absent (stOne x)).run) := hone
  have hrun : ∀ x ∈ items, ∀ a, Ok a →
      (KeyAction.remove K.as absent (stOne x)).run (K.kept empty obj a) =
        (reply (step x a).1, K.kept empty obj (step x a).2) ∧ Ok (step x a).2 := by
    intro x hx a' ha'
    obtain ⟨hst, hnext⟩ := hstep x hx a' ha'
    refine ⟨?_, hnext⟩
    rw [K.run_kept, hst]
    by_cases he : empty a' = true
    · rw [if_pos he, hidle x hx a' ha' he, hz, kept, if_pos he]
    · rw [if_neg he]
      rfl
  obtain ⟨hreplies, heach⟩ := runEach_performs hone' hrun (K.liveEntry_kept hobj empty) haOk
    (fun x _ => by rw [hentry]) hne
  have hall' : Performs fAll now key (.act (KeyAction.remove K.as absentAll stAll).run) := hall
  obtain ⟨hreply, hget⟩ := hall' db
  rw [hentry, K.run_kept] at hreply hget
  refine ⟨obj, a, haOk, hentry, ?_, hreplies, fun hst => Dict.same_of_get hget heach ?_⟩
  · rw [hreply]
    split <;> rfl
  · by_cases he : empty a = true
    · rw [runEach_idle fun x hx => hidle x hx a haOk he, kept, if_pos he, if_pos he]
      exact .none
    · rw [if_neg he, hst]
      exact rel_same_refl _

end shapes

/-! ## Arguments of items -/

/-- Some arguments, in groups of `width`. -/
def Fits (width : Nat) (args : List Bytes) : Prop := args ≠ [] ∧ width ∣ args.length

section items

variable {width : Nat} {items : List Item}

theorem fits_item (hpos : 0 < width) {x : Item} (h : x.1.length = width) : Fits width x.1 := by
  constructor
  · rw [ne_eq, ← List.length_eq_zero_iff]
    omega
  · rw [h]

theorem fits_items (hpos : 0 < width) (h : ∀ x ∈ items, x.1.length = width) (hne : items ≠ []) :
    Fits width (items.flatMap Prod.fst) := by
  constructor
  · obtain ⟨x, hx⟩ := List.exists_mem_of_ne_nil _ hne
    rw [ne_eq, List.flatMap_eq_nil_iff]
    exact fun hnil => (fits_item hpos (h x hx)).1 (hnil x hx)
  · rw [List.length_flatMap]
    refine List.dvd_sum fun n hn => ?_
    obtain ⟨x, hx, rfl⟩ := List.mem_map.mp hn
    rw [h x hx]

end items

/-! ## Commands that count -/

/-- The loop over all arguments does what it does on the items, one by one. -/
def LoopsOver {σ : Type} (items : List Item) (loop : List Bytes → σ → Nat → Nat × σ) : Prop :=
  ∀ s n, loop (items.flatMap Prod.fst) s n =
    (n + (runEach (fun x s => loop x.1 s 0) items s).1.sum,
      (runEach (fun x s => loop x.1 s 0) items s).2)

section counting

variable {α : Type} (K : Kind α) {now : TimePoint} {name key : Bytes} {items : List Item}
  {db : Dict} {width : Nat}
  {action : List Bytes → TimePoint → (Nat → Nat → Nat) → KeyAction}
  (step : Item → α → Nat × α) (Ok : α → Prop) {a₀ : α}

/-- A creating command, by what its loop does on a value. -/
theorem Kind.sumsUp_created (hact : writeActions.lookup (normalize name) = some action)
    {st : (Nat → Nat → Nat) → List Bytes → α → Bytes × ValueVariant}
    (haction : ∀ args rng, Fits width args →
      action (key :: args) now rng = .create K.as (.create (K.wrap a₀)) (st rng args))
    (hpos : 0 < width) (hwidth : ∀ x ∈ items, x.1.length = width)
    (hstep : ∀ x ∈ items, ∀ a, Ok a →
      st x.2 x.1 a = (RespCodec.integer (step x a).1, K.wrap (step x a).2) ∧ Ok (step x a).2)
    (hall : ∀ rng a, Ok a →
      (st rng (items.flatMap Prod.fst) a).1 = RespCodec.integer (runEach step items a).1.sum ∧
        (st rng (items.flatMap Prod.fst) a).2.Same (K.wrap (runEach step items a).2))
    (hlive : db.LiveOfType now key K.type) (ha₀ : Ok a₀)
    (hok : ∀ (obj : RedisObject) (a : α), db.live now key = some (obj.withValue (K.wrap a)) → Ok a)
    (hne : items ≠ []) : SumsUp now name [key] items db := by
  intro rng
  have hperf := performs_execute hact
  have hperfAll : Performs (executeAll now name [key] rng items) now key
      (.create K.as (.create (K.wrap a₀)) (st rng (items.flatMap Prod.fst))) := by
    rw [← haction _ _ (fits_items hpos hwidth hne)]
    exact hperf _ now rng
  have hperfOne : ∀ x ∈ items, Performs (executeItem now name [key] x) now key
      (.create K.as (.create (K.wrap a₀)) (st x.2 x.1)) := by
    intro x hx
    rw [← haction _ _ (fits_item hpos (hwidth x hx))]
    exact hperf _ now x.2
  obtain ⟨a, ha, hreply, hreplies, hsame⟩ :=
    K.created_spec step (fun n : Nat => RespCodec.integer n) hperfAll hperfOne hstep hlive ha₀ hok
      hne
  obtain ⟨hsum, hvalue⟩ := hall rng a ha
  exact ⟨hsame hvalue, (runEach step items a).1, hreplies, hreply.trans hsum⟩

/-- A creating command with a loop over its items. -/
theorem Kind.sumsUp_create_loop (hact : writeActions.lookup (normalize name) = some action)
    {loop : List Bytes → α → Nat → Nat × α} (hloop : LoopsOver items loop)
    (haction : ∀ args rng, Fits width args →
      action (key :: args) now rng = .create K.as (.create (K.wrap a₀)) fun a =>
        (RespCodec.integer (loop args a 0).1, K.wrap (loop args a 0).2))
    (hpos : 0 < width) (hwidth : ∀ x ∈ items, x.1.length = width)
    (hlive : db.LiveOfType now key K.type) (hne : items ≠ []) : SumsUp now name [key] items db := by
  refine K.sumsUp_created (fun x a => loop x.1 a 0) (fun _ => True) hact haction hpos hwidth
    (fun x _ a _ => ⟨rfl, trivial⟩) (fun rng a _ => ?_) hlive trivial (fun _ _ _ => trivial) hne
  rw [hloop, zero_add]
  exact ⟨rfl, .refl _⟩

/-- A removing command with a loop over its items. -/
theorem Kind.sumsUp_remove_loop (hact : writeActions.lookup (normalize name) = some action)
    {loop : List Bytes → α → Nat → Nat × α} (hloop : LoopsOver items loop) {empty : α → Bool}
    (haction : ∀ args rng, args ≠ [] → action (key :: args) now rng =
      .remove K.as (RespCodec.integer 0) fun a =>
        (RespCodec.integer (loop args a 0).1, K.wrap (loop args a 0).2, empty (loop args a 0).2))
    (hwidth : ∀ x ∈ items, x.1.length = 1)
    (hnext : ∀ x ∈ items, ∀ a, Ok a → Ok (loop x.1 a 0).2)
    (hidle : ∀ x ∈ items, ∀ a, Ok a → empty a = true → loop x.1 a 0 = (0, a))
    (hlive : db.LiveOfType now key K.type) (ha₀ : Ok a₀) (hempty : empty a₀ = true)
    (hok : ∀ (obj : RedisObject) (a : α), db.live now key = some (obj.withValue (K.wrap a)) → Ok a)
    (hfilled : ∀ obj a, db.live now key = some obj → obj.value = K.wrap a → empty a = false)
    (hne : items ≠ []) : SumsUp now name [key] items db := by
  intro rng
  have hperf := performs_execute hact
  have hperfAll : Performs (executeAll now name [key] rng items) now key
      (.remove K.as (RespCodec.integer 0) fun a =>
        (RespCodec.integer (loop (items.flatMap Prod.fst) a 0).1,
          K.wrap (loop (items.flatMap Prod.fst) a 0).2,
          empty (loop (items.flatMap Prod.fst) a 0).2)) := by
    rw [← haction _ rng (fits_items one_pos hwidth hne).1]
    exact hperf _ now rng
  have hperfOne : ∀ x ∈ items, Performs (executeItem now name [key] x) now key
      (.remove K.as (RespCodec.integer 0) fun a =>
        (RespCodec.integer (loop x.1 a 0).1, K.wrap (loop x.1 a 0).2,
          empty (loop x.1 a 0).2)) := by
    intro x hx
    rw [← haction _ x.2 (fits_item one_pos (hwidth x hx)).1]
    exact hperf _ now x.2
  obtain ⟨obj, a, ha, hentry, hreply, hreplies, hsame⟩ :=
    K.removed_spec (fun x a => loop x.1 a 0) (fun n : Nat => RespCodec.integer n) hperfAll hperfOne
      (fun x hx a ha => ⟨rfl, hnext x hx a ha⟩) hidle rfl hlive ha₀ hempty hok hfilled hne
  refine ⟨hsame (by rw [hloop]), (runEach (fun x a => loop x.1 a 0) items a).1, hreplies, ?_⟩
  rw [hreply]
  split
  · next he =>
    rw [runEach_idle fun x hx => hidle x hx a ha he]
    simp
  · rw [hloop, zero_add]

end counting

end RedisLike
