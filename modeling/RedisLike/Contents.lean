import RedisLike.Object

/-!
# RedisLike.Contents

When two objects, or two key spaces, have the same contents.

The iteration order of a map or a set, and the towers of a skip list, are no
part of the contents.  `WellFormed` is the invariant of the skip lists inside an
object: for well-formed sorted sets the scores determine the rest.
-/

namespace RedisLike

/-- The same pairs in the same order, and the same score index. -/
def SkipList.Same (sl sl' : SkipList) : Prop :=
  sl.items = sl'.items ∧ sl.getScore = sl'.getScore

/-- Two values of one type with the same contents. -/
def ValueVariant.Same : ValueVariant → ValueVariant → Prop
  | string s, string s' => s = s'
  | hash h, hash h' => ∀ field, h.lookup field = h'.lookup field
  | list l, list l' => l = l'
  | set s, set s' => ∀ member, member ∈ s ↔ member ∈ s'
  | zset sl, zset sl' => sl.Same sl'
  | _, _ => False

/-- The skip list of a sorted set keeps its invariant. -/
def ValueVariant.WellFormed : ValueVariant → Prop
  | zset sl => sl.Valid
  | _ => True

/-- The same type, the same contents and the same deadline. -/
structure RedisObject.Same (obj obj' : RedisObject) : Prop where
  type : obj.type = obj'.type
  value : obj.value.Same obj'.value
  expireAt : obj.expireAt = obj'.expireAt

def RedisObject.WellFormed (obj : RedisObject) : Prop := obj.value.WellFormed

/-- The same keys, with the same objects. -/
def Dict.Same (db db' : Dict) : Prop := ∀ key, Option.Rel RedisObject.Same (db.get key) (db'.get key)

def Dict.WellFormed (db : Dict) : Prop := ∀ key obj, db.get key = some obj → obj.WellFormed

/-! ## Sorted sets by their scores -/

/-- The list has every member with a score, and has it once. -/
structure SkipList.Listed (sl : SkipList) : Prop where
  nodup : (sl.rangeByRank 0 ((sl.size : Int) - 1)).Nodup
  mem_iff : ∀ m, m ∈ sl.rangeByRank 0 ((sl.size : Int) - 1) ↔ (sl.getScore m).isSome = true

theorem SkipList.Valid.listed {sl : SkipList} (h : sl.Valid) : sl.Listed := by
  constructor
  · rw [h.rangeByRank_all]
    exact h.nodup_members
  · intro m
    rw [h.rangeByRank_all, List.mem_map, Option.isSome_iff_exists]
    constructor
    · rintro ⟨p, hp, rfl⟩
      exact ⟨p.2, h.mem_items.mp hp⟩
    · rintro ⟨s, hs⟩
      exact ⟨(m, s), h.mem_items.mpr hs, rfl⟩

def ValueVariant.Listed : ValueVariant → Prop
  | zset sl => sl.Listed
  | _ => True

theorem ValueVariant.WellFormed.listed {v : ValueVariant} (h : v.WellFormed) : v.Listed := by
  cases v with
  | zset sl => exact SkipList.Valid.listed h
  | _ => trivial

/-- The same contents, where those of a sorted set are its scores. -/
def ValueVariant.Agrees : ValueVariant → ValueVariant → Prop
  | string s, string s' => s = s'
  | hash h, hash h' => ∀ field, h.lookup field = h'.lookup field
  | list l, list l' => l = l'
  | set s, set s' => ∀ member, member ∈ s ↔ member ∈ s'
  | zset sl, zset sl' => sl.getScore = sl'.getScore
  | _, _ => False

/-- The same type, the same contents and the same deadline. -/
structure RedisObject.Agrees (obj obj' : RedisObject) : Prop where
  type : obj.type = obj'.type
  value : obj.value.Agrees obj'.value
  expireAt : obj.expireAt = obj'.expireAt

theorem ValueVariant.Agrees.objType_eq {v v' : ValueVariant} (h : v.Agrees v') :
    v.objType = v'.objType := by
  cases v <;> cases v' <;> first | rfl | exact h.elim

theorem RedisObject.agrees_iff {obj obj' : RedisObject} :
    obj.Agrees obj' ↔ obj.value.Agrees obj'.value ∧ obj.expireAt = obj'.expireAt := by
  refine ⟨fun h => ⟨h.value, h.expireAt⟩, fun h => ⟨?_, h.1, h.2⟩⟩
  rw [obj.type_eq, obj'.type_eq, h.1.objType_eq]

/-! ## Same contents -/

theorem ValueVariant.Same.refl (v : ValueVariant) : v.Same v := by
  cases v with
  | string s => rfl
  | hash h => exact fun _ => rfl
  | list l => rfl
  | set s => exact fun _ => Iff.rfl
  | zset sl => exact ⟨rfl, rfl⟩

theorem ValueVariant.Same.symm {v v' : ValueVariant} (h : v.Same v') : v'.Same v := by
  cases v <;> cases v'
  case string.string => exact Eq.symm h
  case hash.hash => exact fun field => (h field).symm
  case list.list => exact Eq.symm h
  case set.set => exact fun member => (h member).symm
  case zset.zset => exact ⟨h.1.symm, h.2.symm⟩
  all_goals exact h.elim

theorem ValueVariant.Same.objType_eq {v v' : ValueVariant} (h : v.Same v') :
    v.objType = v'.objType := by
  cases v <;> cases v' <;> first | rfl | exact h.elim

theorem RedisObject.Same.refl (obj : RedisObject) : obj.Same obj := ⟨rfl, .refl _, rfl⟩

/-- The type of an object is that of its value. -/
theorem RedisObject.same_iff {obj obj' : RedisObject} :
    obj.Same obj' ↔ obj.value.Same obj'.value ∧ obj.expireAt = obj'.expireAt := by
  refine ⟨fun h => ⟨h.value, h.expireAt⟩, fun h => ⟨?_, h.1, h.2⟩⟩
  rw [obj.type_eq, obj'.type_eq, h.1.objType_eq]

/-- Well-formed sorted sets with equal scores have the same contents. -/
theorem SkipList.same_of_getScore_eq {sl sl' : SkipList} (h : sl.Valid) (h' : sl'.Valid)
    (hs : sl.getScore = sl'.getScore) : sl.Same sl' :=
  ⟨h.items_eq h' hs, hs⟩

theorem rel_isSome_eq {e e' : Option RedisObject} (h : Option.Rel RedisObject.Same e e') :
    e.isSome = e'.isSome := by
  cases h <;> rfl

theorem rel_expireAt_eq {e e' : Option RedisObject} (h : Option.Rel RedisObject.Same e e') :
    e.map RedisObject.expireAt = e'.map RedisObject.expireAt := by
  cases h with
  | none => rfl
  | some h => exact congrArg some h.expireAt

theorem rel_asList_eq {e e' : Option RedisObject} (h : Option.Rel RedisObject.Same e e') :
    (e.bind fun obj => obj.value.asList) = e'.bind fun obj => obj.value.asList := by
  cases h with
  | none => rfl
  | @some obj obj' h =>
      have hsame := h.value
      rw [Option.bind_some, Option.bind_some]
      generalize obj.value = v at hsame
      generalize obj'.value = v' at hsame
      cases v <;> cases v' <;> first | exact congrArg some hsame | rfl | exact hsame.elim

end RedisLike
