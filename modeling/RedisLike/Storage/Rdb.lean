import RedisLike.Contents
import RedisLike.Lib.InputStream

/-!
# RedisLike.Storage.Rdb

The snapshot file of `rdb.h` and `rdb.cpp`: `RdbSaver::Save` as the bytes it
writes, `RdbSaver::Load` as a reader of a stream.

The host is little-endian and writing succeeds.  A missing file is `none`.  The
heights of the nodes that loading a sorted set creates are read from `rng`, one
stream of random words for each record and element.
-/

namespace RedisLike

/-- `kRdbMagic`. -/
def kRdbMagic : Bytes := ascii "REDIS0001"

/-- `kRdbVersion`. -/
def kRdbVersion : UInt8 := 1

/-- `kRdbEof`. -/
def kRdbEof : UInt8 := 0xFF

/-- `kRdbExpireMs`. -/
def kRdbExpireMs : UInt8 := 0xFC

/-- `kRdbSelectDb`. -/
def kRdbSelectDb : UInt8 := 0xFE

/-- The numbers of the enumerators of `ObjType`. -/
def ObjType.code : ObjType → UInt8
  | .string => 0
  | .hash => 1
  | .list => 2
  | .set => 3
  | .zset => 4

namespace RdbSaver

/-! ## Writers -/

/-- `RdbSaver::WriteU8`. -/
def writeU8 (v : UInt8) : Bytes := [v]

/-- `RdbSaver::WriteU32` after the conversion to `uint32_t`. -/
def writeU32 (v : Nat) : Bytes := leBytes 4 v

/-- `RdbSaver::WriteI64`. -/
def writeI64 (v : Int64) : Bytes := leBytes 8 v.toUInt64.toNat

/-- `RdbSaver::WriteDouble`. -/
def writeDouble (v : Double) : Bytes := leBytes 8 v.bits.toNat

/-- `RdbSaver::WriteString`. -/
def writeString (s : Bytes) : Bytes := writeU32 s.length ++ s

/-- The milliseconds of a deadline; `duration_cast` rounds towards zero. -/
def toMilliseconds (at_ : TimePoint) : Int64 := at_ / 1000000

/-- `RdbSaver::WriteExpire`. -/
def writeExpire : Option TimePoint → Bytes
  | some at_ => writeU8 kRdbExpireMs ++ writeI64 (toMilliseconds at_)
  | none => []

/-- `RdbSaver::SaveString`. -/
def saveString (s : RedisString) : Bytes := writeU8 ObjType.string.code ++ writeString s

/-- `RdbSaver::SaveHash`. -/
def saveHash (h : RedisHash) : Bytes :=
  writeU8 ObjType.hash.code ++ writeU32 h.size ++
    (h.pairs.map fun kv => writeString kv.1 ++ writeString kv.2).flatten

/-- `RdbSaver::SaveList`. -/
def saveList (l : RedisList) : Bytes :=
  writeU8 ObjType.list.code ++ writeU32 l.length ++ (l.map writeString).flatten

/-- `RdbSaver::SaveSet`. -/
def saveSet (s : RedisSet) : Bytes :=
  writeU8 ObjType.set.code ++ writeU32 s.size ++ (s.elems.map writeString).flatten

/-- `RdbSaver::SaveZSet`.  `*score` of a member of the list; an empty optional
would be undefined behaviour, and reads as 0 here. -/
def saveZSet (sl : SkipList) : Bytes :=
  let members := sl.rangeByRank 0 ((sl.size : Int) - 1)
  writeU8 ObjType.zset.code ++ writeU32 members.length ++
    (members.map fun m => writeString m ++
      writeDouble ((sl.getScore m).getD (Double.ofMagnitude false 0))).flatten

/-- The `switch` of `RdbSaver::SaveObject`, on the alternative that the type names. -/
def saveValue : ValueVariant → Bytes
  | .string s => saveString s
  | .hash h => saveHash h
  | .list l => saveList l
  | .set s => saveSet s
  | .zset sl => saveZSet sl

/-- `RdbSaver::SaveObject`. -/
def saveObject (obj : RedisObject) : Bytes := writeExpire obj.expireAt ++ saveValue obj.value

/-- One round of the loop of `RdbSaver::Save`. -/
def saveEntry (kv : Bytes × RedisObject) : Bytes := writeString kv.1 ++ saveObject kv.2

/-- The header of the file: magic, version and database selector. -/
def header : Bytes := kRdbMagic ++ writeU8 kRdbVersion ++ (writeU8 kRdbSelectDb ++ writeU32 0)

/-- The end of the file, with the place of a checksum. -/
def trailer : Bytes := writeU8 kRdbEof ++ writeI64 0

/-- `RdbSaver::Save`: the file. -/
def save (db : Dict) : Bytes := header ++ (db.pairs.map saveEntry).flatten ++ trailer

/-! ## Readers -/

open InputStream

/-- `RdbSaver::ReadU8`: what a short read leaves out stays 0, here and below. -/
def readU8 : StreamM UInt8 := (fun bytes => bytes.headD 0) <$> read 1

/-- `RdbSaver::ReadU32`. -/
def readU32 : StreamM Nat := leValue <$> read 4

/-- `RdbSaver::ReadI64`. -/
def readI64 : StreamM Int64 := (fun bytes => (leValue bytes).toUInt64.toInt64) <$> read 8

/-- `RdbSaver::ReadDouble`. -/
def readDouble : StreamM Double := (fun bytes => ⟨(leValue bytes).toUInt64⟩) <$> read 8

/-- `RdbSaver::ReadString`. -/
def readString : StreamM Bytes := do
  let len ← readU32
  let bytes ← read len
  pure (bytes ++ List.replicate (len - bytes.length) 0)

/-- `TimePoint(std::chrono::milliseconds(ms))`. -/
def ofMilliseconds (ms : Int64) : TimePoint := ms * 1000000

/-- `RdbSaver::ReadExpire`. -/
def readExpire : StreamM (Option TimePoint) := do
  let marker ← readU8
  if marker = kRdbExpireMs then
    let ms ← readI64
    pure (some (ofMilliseconds ms))
  else
    stepBack
    pure none

/-- A field and its value, as `LoadObject` reads them. -/
def readField : StreamM (Bytes × Bytes) := do
  let field ← readString
  let val ← readString
  pure (field, val)

/-- A member and its score, as `LoadObject` reads them. -/
def readScore : StreamM (Bytes × Double) := do
  let member ← readString
  let score ← readDouble
  pure (member, score)

/-- The elements of a sorted set inserted one by one. -/
def insertAll (rng : Nat → Nat → Nat) : Nat → List (Bytes × Double) → SkipList → SkipList
  | _, [], sl => sl
  | i, (member, score) :: rest, sl =>
    insertAll rng (i + 1) rest (sl.insert score member (randomLevel (rng i))).2

/-- `RdbSaver::LoadObject`.  Its loops read and store in turn; the elements are
read first here, which reads the same bytes. -/
def loadObject (rng : Nat → Nat → Nat) (type : UInt8) : StreamM (Option RedisObject) :=
  if type = ObjType.string.code then do
    let val ← readString
    pure (some (RedisObject.createString val))
  else if type = ObjType.hash.code then do
    let count ← readU32
    let fields ← times readField count
    pure (some (RedisObject.createHash.withValue
      (.hash (fields.foldl (fun h kv => h.insert kv.1 kv.2) ∅))))
  else if type = ObjType.list.code then do
    let count ← readU32
    let vals ← times readString count
    pure (some (RedisObject.createList.withValue (.list vals)))
  else if type = ObjType.set.code then do
    let count ← readU32
    let members ← times readString count
    pure (some (RedisObject.createSet.withValue
      (.set (members.foldl (fun s member => s.insert member) ∅))))
  else if type = ObjType.zset.code then do
    let count ← readU32
    let scores ← times readScore count
    pure (some (RedisObject.createZSet.withValue (.zset (insertAll rng 0 scores .new))))
  else pure none

/-- One record: the key, and its object unless the type is unknown. -/
def loadEntry (rng : Nat → Nat → Nat) : StreamM (Bytes × Option RedisObject) := do
  let key ← readString
  let expireAt ← readExpire
  let type ← readU8
  let obj ← loadObject rng type
  pure (key, obj.map (·.withExpire expireAt))

/-- `db.Set(key, std::move(obj))`, if there is an object. -/
def storeEntry (db : Dict) : Bytes × Option RedisObject → Dict
  | (_, none) => db
  | (key, some obj) => db.set key obj

/-- The loop of `RdbSaver::Load`.  A round reads at least five bytes or sets
`failbit`, so the length of the file bounds it. -/
def loadLoop (rng : Nat → Nat → Nat → Nat) : Nat → Dict → StreamM Dict
  | 0, db => pure db
  | fuel + 1, db => do
    if ← ok then
      match ← peek with
      | none => pure db
      | some b =>
        if b = kRdbEof then pure db
        else
          let entry ← loadEntry (rng fuel)
          loadLoop rng fuel (storeEntry db entry)
    else pure db

/-- The database selector, which may be missing. -/
def skipSelectDb : StreamM Unit := do
  let marker ← readU8
  if marker = kRdbSelectDb then
    let _ ← readU32
    pure ()
  else stepBack

/-- `RdbSaver::Load` on a file that could be opened. -/
def loadFile (rng : Nat → Nat → Nat → Nat) (fuel : Nat) (db : Dict) : StreamM (Bool × Dict) := do
  let magic ← read 9
  if magic ≠ kRdbMagic then pure (false, db)
  else
    let _ ← readU8
    skipSelectDb
    let db ← loadLoop rng fuel db
    pure (true, db)

/-- `RdbSaver::Load`. -/
def load (rng : Nat → Nat → Nat → Nat) (file : Option Bytes) (db : Dict) : Bool × Dict :=
  match file with
  | none => (false, db)
  | some data => (loadFile rng (data.length + 1) db { data := data }).1

end RdbSaver

end RedisLike
