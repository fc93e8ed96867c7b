import RedisLike.Storage.RdbRoundTrip
import RedisLike.Storage.RdbTermination

/-!
# RedisLike.Storage.RdbObject

The codec of objects: what `SaveObject` writes is read back by `ReadExpire`,
`ReadU8` and `LoadObject`, and nothing more is read (`readObject_saveObject`).
-/

namespace RedisLike

namespace RdbSaver

open InputStream

/-- `SaveObject` writes at least the type. -/
theorem length_saveObject_pos (obj : RedisObject) : 0 < (saveObject obj).length := by
  rw [saveObject_eq, RawValue.bytes, writeU8]
  simp

theorem yields_readObject (rng : Nat → Nat → Nat) {obj : RedisObject} (h : Fits obj.value) :
    Yields (readObject rng) (saveObject obj) (some (loadedObject rng obj)) := by
  have hread := pads_readObject rng (obj.expireAt.map toMilliseconds) h.small_raw
  rw [← saveObject_eq, h.object_raw, Option.map_map] at hread
  exact hread.yields

/-- The instant `d` as an `kRdbExpireMs` field keeps it: whole milliseconds, rounded
towards the epoch. -/
def wholeMilliseconds (d : Int) : Int := d.tdiv 1000000 * 1000000

/-- What is read from the bytes of `obj` on `is`: its type, its contents and its
deadline in whole milliseconds, with the stream just behind the bytes. -/
structure ReadsBack (obj : RedisObject) (is : InputStream) (r : Option RedisObject × InputStream)
    (obj' : RedisObject) : Prop where
  found : r.1 = some obj'
  type : obj'.type = obj.type
  value : obj'.value.Same obj.value
  wellFormed : obj'.WellFormed
  deadline : obj'.expireAt.map Int64.toInt =
    obj.expireAt.map fun at_ => wholeMilliseconds at_.toInt
  stream : r.2 = { is with pos := is.pos + (saveObject obj).length }

/-- **The codec of objects is exact**: an object is read back from its bytes,
whatever follows them, and nothing of that is read. -/
theorem readObject_saveObject (rng : Nat → Nat → Nat) {obj : RedisObject} (h : Fits obj.value)
    {is : InputStream} (rest : Bytes) (his : is.Before (saveObject obj ++ rest)) :
    ∃ obj', ReadsBack obj is (readObject rng is) obj' ∧ (readObject rng is).2.Before rest := by
  have hyields := yields_readObject rng h
  have hpos : is.pos ≤ is.data.length := by
    have hlen := congrArg List.length his.drop
    have hobj := length_saveObject_pos obj
    rw [List.length_drop, List.length_append] at hlen
    omega
  have hrun := hyields.eq_of_advances (advances_readObject rng) his hpos
  obtain ⟨hsame, hwf⟩ := loadedObject_same rng h
  refine ⟨loadedObject rng obj, ?_, (hyields is rest his).2⟩
  rw [hrun]
  refine ⟨rfl, hsame.type, hsame.value, hwf, ?_, rfl⟩
  rw [hsame.expireAt, truncated, RedisObject.expireAt_withExpire, Option.map_map]
  simp only [Function.comp_def, toInt_ofMilliseconds, wholeMilliseconds]

/-- A sorted set with one member and a deadline. -/
def oneScore : RedisObject :=
  (RedisObject.create (.zset (insertAll (fun _ _ => 0) 0 [(ascii "m", Double.ofMagnitude true 1)]
    .new))).withExpire (some 1500000)

theorem fits_oneScore : Fits oneScore.value :=
  ⟨⟨by decide, by decide⟩, insertAll_valid (fun _ _ => 0) SkipList.valid_new (by decide)⟩

theorem readObject_saveObject_oneScore :
    ∃ obj', ReadsBack oneScore { data := saveObject oneScore ++ [kRdbEof] }
        (readObject (fun _ _ => 0) { data := saveObject oneScore ++ [kRdbEof] }) obj' ∧
      (readObject (fun _ _ => 0) { data := saveObject oneScore ++ [kRdbEof] }).2.Before [kRdbEof] :=
  readObject_saveObject (fun _ _ => 0) fits_oneScore [kRdbEof] (before_open _)

end RdbSaver

end RedisLike
