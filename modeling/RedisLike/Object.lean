import RedisLike.SkipList.Refine

/-!
# RedisLike.Object

The data of the server: `object.h` and `dict.h`.

A `RedisObject` carries the agreement of its `type` with the alternative that
its `value` holds, so an object with a wrong tag cannot be built.  Objects are
values: the source shares them through `shared_ptr`, but the `Dict` is the only
owner, so writing through a pointer is writing the entry back.  `encoding` and
`lru` are set and never read, and are left out.
-/

namespace RedisLike

/-- A point of the steady clock, in nanoseconds. -/
abbrev TimePoint := Int64

/-- `ObjType`. -/
inductive ObjType where
  | string
  | hash
  | list
  | set
  | zset
deriving DecidableEq, Repr

/-- `ObjTypeName`. -/
def ObjType.name : ObjType → Bytes
  | .string => ascii "string"
  | .hash => ascii "hash"
  | .list => ascii "list"
  | .set => ascii "set"
  | .zset => ascii "zset"

/-! ## Values -/

abbrev RedisString := Bytes
abbrev RedisHash := UnorderedMap Bytes Bytes
abbrev RedisList := List Bytes
abbrev RedisSet := UnorderedSet Bytes

/-- `ValueVariant`. -/
inductive ValueVariant where
  | string (s : RedisString)
  | hash (h : RedisHash)
  | list (l : RedisList)
  | set (s : RedisSet)
  | zset (sl : SkipList)

namespace ValueVariant

/-- The type of the alternative held. -/
def objType : ValueVariant → ObjType
  | string _ => .string
  | hash _ => .hash
  | list _ => .list
  | set _ => .set
  | zset _ => .zset

/-- `As<RedisString>()`. -/
def asString : ValueVariant → Option RedisString
  | string s => some s
  | _ => none

/-- `As<RedisHash>()`. -/
def asHash : ValueVariant → Option RedisHash
  | hash h => some h
  | _ => none

/-- `As<RedisList>()`. -/
def asList : ValueVariant → Option RedisList
  | list l => some l
  | _ => none

/-- `As<RedisSet>()`. -/
def asSet : ValueVariant → Option RedisSet
  | set s => some s
  | _ => none

/-- `As<std::shared_ptr<SkipList>>()`. -/
def asZSet : ValueVariant → Option SkipList
  | zset sl => some sl
  | _ => none

end ValueVariant

/-! What `As` returns tells the type. -/

theorem objType_of_asString {v : ValueVariant} {s : RedisString} (hv : v.asString = some s) :
    v.objType = .string := by
  cases v with
  | string _ => rfl
  | _ => cases hv

theorem objType_of_asHash {v : ValueVariant} {h : RedisHash} (hv : v.asHash = some h) :
    v.objType = .hash := by
  cases v with
  | hash _ => rfl
  | _ => cases hv

theorem objType_of_asList {v : ValueVariant} {l : RedisList} (hv : v.asList = some l) :
    v.objType = .list := by
  cases v with
  | list _ => rfl
  | _ => cases hv

theorem objType_of_asSet {v : ValueVariant} {s : RedisSet} (hv : v.asSet = some s) :
    v.objType = .set := by
  cases v with
  | set _ => rfl
  | _ => cases hv

theorem objType_of_asZSet {v : ValueVariant} {sl : SkipList} (hv : v.asZSet = some sl) :
    v.objType = .zset := by
  cases v with
  | zset _ => rfl
  | _ => cases hv

/-! And the type tells that `As` finds its value. -/

theorem isSome_asHash {v : ValueVariant} (h : v.objType = .hash) : v.asHash.isSome := by
  cases v with
  | hash _ => rfl
  | _ => cases h

theorem isSome_asList {v : ValueVariant} (h : v.objType = .list) : v.asList.isSome := by
  cases v with
  | list _ => rfl
  | _ => cases h

theorem isSome_asSet {v : ValueVariant} (h : v.objType = .set) : v.asSet.isSome := by
  cases v with
  | set _ => rfl
  | _ => cases h

theorem isSome_asZSet {v : ValueVariant} (h : v.objType = .zset) : v.asZSet.isSome := by
  cases v with
  | zset _ => rfl
  | _ => cases h

/-! ## Objects -/

/-- `RedisObject`. -/
structure RedisObject where
  type : ObjType
  value : ValueVariant
  expireAt : Option TimePoint
  type_eq : type = value.objType

namespace RedisObject

/-- The factories: an object without a deadline. -/
def create (value : ValueVariant) : RedisObject := ⟨value.objType, value, none, rfl⟩

/-- `RedisObject::CreateString`. -/
def createString (s : RedisString) : RedisObject := create (.string s)

/-- `RedisObject::CreateHash`. -/
def createHash : RedisObject := create (.hash ∅)

/-- `RedisObject::CreateList`. -/
def createList : RedisObject := create (.list [])

/-- `RedisObject::CreateSet`. -/
def createSet : RedisObject := create (.set ∅)

/-- `RedisObject::CreateZSet`. -/
def createZSet : RedisObject := create (.zset .new)

/-- Writing through the pointer that `As` returned. -/
def withValue (obj : RedisObject) (value : ValueVariant) : RedisObject :=
  ⟨value.objType, value, obj.expireAt, rfl⟩

/-- `obj->expire_at = expireAt`. -/
def withExpire (obj : RedisObject) (expireAt : Option TimePoint) : RedisObject :=
  { obj with expireAt := expireAt }

/-- `RedisObject::IsExpired`. -/
def isExpired (obj : RedisObject) (now : TimePoint) : Bool :=
  match obj.expireAt with
  | some at_ => at_ ≤ now
  | none => false

/-- An object is its value and its deadline. -/
theorem ext_value {a b : RedisObject} (hv : a.value = b.value) (he : a.expireAt = b.expireAt) :
    a = b := by
  obtain ⟨ta, va, ea, ha⟩ := a
  obtain ⟨tb, vb, eb, hb⟩ := b
  subst ha hb hv he
  rfl

@[simp] theorem value_create (v : ValueVariant) : (create v).value = v := rfl
@[simp] theorem expireAt_create (v : ValueVariant) : (create v).expireAt = none := rfl
@[simp] theorem value_withValue (obj : RedisObject) (v : ValueVariant) :
    (obj.withValue v).value = v := rfl
@[simp] theorem expireAt_withValue (obj : RedisObject) (v : ValueVariant) :
    (obj.withValue v).expireAt = obj.expireAt := rfl
@[simp] theorem value_withExpire (obj : RedisObject) (e : Option TimePoint) :
    (obj.withExpire e).value = obj.value := rfl
@[simp] theorem expireAt_withExpire (obj : RedisObject) (e : Option TimePoint) :
    (obj.withExpire e).expireAt = e := rfl

@[simp] theorem withValue_value (obj : RedisObject) : obj.withValue obj.value = obj :=
  ext_value rfl rfl

/-- Only an object with a deadline expires. -/
theorem isExpired_of_expireAt_none {obj : RedisObject} (h : obj.expireAt = none)
    (now : TimePoint) : obj.isExpired now = false := by
  simp [isExpired, h]

end RedisObject

/-! ## The key space -/

/-- `Dict`. -/
abbrev Dict := UnorderedMap Bytes RedisObject

namespace Dict

/-- `Dict::Get`. -/
def get (db : Dict) (key : Bytes) : Option RedisObject := db.lookup key

/-- `Dict::Set`. -/
def set (db : Dict) (key : Bytes) (obj : RedisObject) : Dict := AList.insert key obj db

/-- `Dict::Del`. -/
def del (db : Dict) (key : Bytes) : Bool × Dict := ((db.lookup key).isSome, db.erase key)

/-- `Dict::Exists`. -/
def existsKey (db : Dict) (key : Bytes) : Bool := (db.lookup key).isSome

theorem get_empty (key : Bytes) : (∅ : Dict).get key = none := AList.lookup_empty key

theorem get_set (db : Dict) (key : Bytes) (obj : RedisObject) (k : Bytes) :
    (db.set key obj).get k = if k = key then some obj else db.get k :=
  UnorderedMap.lookup_insert_eq k key obj db

theorem get_del (db : Dict) (key k : Bytes) :
    (db.del key).2.get k = if k = key then none else db.get k :=
  UnorderedMap.lookup_erase_eq k key db

theorem del_fst (db : Dict) (key : Bytes) : (db.del key).1 = (db.get key).isSome := rfl

theorem existsKey_eq (db : Dict) (key : Bytes) : db.existsKey key = (db.get key).isSome := rfl

theorem mem_keys {db : Dict} {key : Bytes} : key ∈ db.keys ↔ (db.get key).isSome :=
  AList.lookup_isSome.symm

end Dict

end RedisLike
