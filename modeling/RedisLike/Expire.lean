import RedisLike.Object

/-!
# RedisLike.Expire

The lazy deletion of `expire.h` and `expire.cpp`, and the live view of the key
space: what commands can see of it, an expired key counting as missing.
-/

namespace RedisLike

/-- `ExpireManager::LazyCheck`. -/
def lazyCheck (db : Dict) (key : Bytes) (now : TimePoint) : Bool × Dict :=
  match db.get key with
  | none => (false, db)
  | some obj => if obj.isExpired now then (true, (db.del key).2) else (false, db)

/-- `ExpireManager::GetTTL`, in seconds.  `duration_cast` rounds towards zero. -/
def getTTL (obj : Option RedisObject) (now : TimePoint) : Int64 :=
  match obj with
  | none => -2
  | some obj =>
    match obj.expireAt with
    | none => -1
    | some at_ =>
      let remaining := (at_ - now) / 1000000000
      if remaining ≥ 0 then remaining else -2

/-! ## The live view -/

/-- An entry as it is seen at `now`. -/
def liveEntry (now : TimePoint) (e : Option RedisObject) : Option RedisObject :=
  e.filter fun obj => !obj.isExpired now

namespace Dict

/-- The entry of a key as commands see it at `now`. -/
def live (db : Dict) (now : TimePoint) (key : Bytes) : Option RedisObject :=
  liveEntry now (db.get key)

theorem get_lazyCheck (db : Dict) (key : Bytes) (now : TimePoint) (k : Bytes) :
    (lazyCheck db key now).2.get k = if k = key then db.live now key else db.get k := by
  unfold lazyCheck live liveEntry
  cases h : db.get key with
  | none =>
      by_cases hk : k = key
      · simp [hk, h]
      · simp [hk]
  | some obj =>
      by_cases he : obj.isExpired now = true
      · simp [Option.filter, he, get_del]
      · by_cases hk : k = key
        · simp [Option.filter, hk, h, he]
        · simp [hk, he]

/-- After the lazy check of a key its entry is the live one. -/
theorem get_lazyCheck_self (db : Dict) (key : Bytes) (now : TimePoint) :
    (lazyCheck db key now).2.get key = db.live now key := by
  rw [get_lazyCheck, if_pos rfl]

end Dict

theorem liveEntry_eq_some {now : TimePoint} {e : Option RedisObject} {obj : RedisObject} :
    liveEntry now e = some obj ↔ e = some obj ∧ obj.isExpired now = false := by
  simp [liveEntry, Option.filter_eq_some_iff]

@[simp] theorem liveEntry_liveEntry (now : TimePoint) (e : Option RedisObject) :
    liveEntry now (liveEntry now e) = liveEntry now e := by
  cases e with
  | none => rfl
  | some obj => by_cases h : obj.isExpired now = true <;> simp [liveEntry, Option.filter, h]

/-- An object without a deadline is live. -/
theorem liveEntry_of_expireAt_none {e : Option RedisObject}
    (h : ∀ obj, e = some obj → obj.expireAt = none) (now : TimePoint) : liveEntry now e = e := by
  cases e with
  | none => rfl
  | some obj =>
      simp [liveEntry, Option.filter, RedisObject.isExpired_of_expireAt_none (h obj rfl) now]

end RedisLike
