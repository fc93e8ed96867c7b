import RedisLike.Storage.RdbRecord

/-!
# RedisLike.Storage.RdbTermination

`Load` on any file.

`loadRound` is one round of its loop, without a bound on the rounds: it reads on
by five bytes, or the stream fails and the loop stops (`round_advances`).  So no
run of rounds is endless, and the bound of `loadLoop` is never reached
(`load_terminates`).
-/

namespace RedisLike

namespace RdbSaver

open InputStream

/-! ## Progress -/

theorem advances_readU8 : Advances readU8 1 := (advances_read 1).map _

theorem advances_readU32 : Advances readU32 4 := (advances_read 4).map _

theorem advances_readString : Advances readString 4 :=
  advances_readU32.bind fun len => ((advances_read len).mono (Nat.zero_le len)).bind_pure _

theorem advances_readField : Advances readField 0 :=
  (advances_readString.bind fun field => advances_readString.bind_pure (field, ·)).mono (by decide)

theorem advances_readScore : Advances readScore 0 :=
  (advances_readString.bind fun member =>
    ((advances_read 8).map _).bind_pure (member, ·)).mono (by decide)

/-- `ReadExpire` puts back no more than it has read. -/
theorem advances_readExpire : Advances readExpire 0 := by
  intro is
  have hmarker := advances_readU8 is
  have hrun : readExpire is = (if (readU8 is).1 = kRdbExpireMs then
      readI64 >>= fun ms => pure (some (ofMilliseconds ms))
    else stepBack >>= fun _ => pure none : StreamM (Option TimePoint)) (readU8 is).2 := rfl
  rw [hrun]
  split
  · have hms : Advances (readI64 >>= fun ms => pure (some (ofMilliseconds ms))) 8 :=
      Advances.bind_pure ((advances_read 8).map _) _
    exact (hmarker.trans (hms _)).mono (by decide)
  · exact hmarker.stepBack

theorem advances_counted {α β : Type} {x : StreamM α} (hx : Advances x 0) (f : List α → β) :
    Advances (do let count ← readU32; let as ← times x count; pure (f as)) 0 :=
  (advances_readU32.bind fun count => (advances_times hx count).bind_pure f).mono (by decide)

theorem advances_loadObject (rng : Nat → Nat → Nat) (type : UInt8) :
    Advances (loadObject rng type) 0 := by
  have hstring : Advances readString 0 := advances_readString.mono (by decide)
  unfold loadObject
  split
  · exact hstring.bind_pure _
  split
  · exact advances_counted advances_readField _
  split
  · exact advances_counted hstring _
  split
  · exact advances_counted hstring _
  split
  · exact advances_counted advances_readScore _
  · exact advances_pure none

theorem advances_readObject (rng : Nat → Nat → Nat) : Advances (readObject rng) 1 :=
  advances_readExpire.bind fun _ =>
    advances_readU8.bind fun type => (advances_loadObject rng type).bind_pure _

/-- **A record takes five bytes** at least, or the stream fails. -/
theorem advances_loadEntry (rng : Nat → Nat → Nat) : Advances (loadEntry rng) 5 := by
  rw [loadEntry_eq]
  exact advances_readString.bind fun _ => (advances_readObject rng).bind_pure _

/-! ## Rounds -/

/-- One round of the loop of `RdbSaver::Load`; `none` when the loop stops. -/
def loadRound (rng : Nat → Nat → Nat) (s : Dict × InputStream) : Option (Dict × InputStream) :=
  if s.2.failbit then none
  else
    match (peek s.2).1 with
    | none => none
    | some b =>
      if b = kRdbEof then none
      else
        let entry := loadEntry rng (peek s.2).2
        some (storeEntry s.1 entry.1, entry.2)

/-- One round, with some outcome of the random heights. -/
def Round (s s' : Dict × InputStream) : Prop := ∃ rng, loadRound rng s = some s'

/-- The loop stops here. -/
def Stopped (s : Dict × InputStream) : Prop := ∀ s', ¬ Round s s'

/-- A round starts on a stream that stands in front of a byte. -/
theorem loadRound_eq_some {rng : Nat → Nat → Nat} {s s' : Dict × InputStream}
    (h : loadRound rng s = some s') : s.2.failbit = false ∧ s.2.pos < s.2.data.length ∧
      s' = (storeEntry s.1 (loadEntry rng s.2).1, (loadEntry rng s.2).2) := by
  unfold loadRound at h
  split at h
  · contradiction
  · next hfail =>
    cases hpeek : (peek s.2).1 with
    | none => simp [hpeek] at h
    | some b =>
        obtain ⟨hrun, hpos⟩ := peek_eq_of_some hpeek
        simp only [hrun] at h
        split at h
        · contradiction
        · exact ⟨by simpa using hfail, hpos, (Option.some.inj h).symm⟩

/-- Whether the loop stops does not depend on the heights. -/
theorem stopped_of_loadRound {rng : Nat → Nat → Nat} {s : Dict × InputStream}
    (h : loadRound rng s = none) : Stopped s := by
  rintro s' ⟨rng', h'⟩
  unfold loadRound at h h'
  split at h'
  · contradiction
  · next hfail =>
    rw [if_neg hfail] at h
    cases hpeek : (peek s.2).1 with
    | none => simp [hpeek] at h'
    | some b =>
        simp only [hpeek] at h h'
        split at h
        · next hb => simp [hb] at h'
        · contradiction

theorem loadLoop_succ (rng : Nat → Nat → Nat → Nat) (fuel : Nat) (s : Dict × InputStream) :
    (loadLoop rng (fuel + 1) s.1 s.2).1 =
      (loadRound (rng fuel) s).elim s.1 fun s' => (loadLoop rng fuel s'.1 s'.2).1 := by
  obtain ⟨db, is⟩ := s
  rw [loadLoop, loadRound]
  cases hpeek : peek is with
  | mk next is' =>
      cases hfail : is.failbit with
      | true =>
          simp only [bind, StateT.bind, ok, hfail]
          rfl
      | false =>
          simp only [bind, StateT.bind, ok, hfail, hpeek, Bool.not_false, if_true,
            Bool.false_eq_true, if_false]
          cases next with
          | none => rfl
          | some b => dsimp only; split <;> rfl

/-! ## Termination -/

/-- **A round** reads on by five bytes, or is the last. -/
theorem round_advances {s s' : Dict × InputStream} (h : Round s s') :
    s'.2.data = s.2.data ∧ (s.2.pos + 5 ≤ s'.2.pos ∨ s'.2.failbit = true ∧ Stopped s') := by
  obtain ⟨rng, h⟩ := h
  obtain ⟨-, -, rfl⟩ := loadRound_eq_some h
  have hmoves := advances_loadEntry rng s.2
  refine ⟨hmoves.data, hmoves.forward.symm.imp And.right fun hfail => ⟨hfail, ?_⟩⟩
  rintro s'' ⟨rng', h''⟩
  rw [(loadRound_eq_some h'').1] at hfail
  contradiction

/-- The bytes that are left for the loop. -/
def bytesLeft (s : Dict × InputStream) : Nat :=
  if s.2.failbit then 0 else s.2.data.length - s.2.pos

theorem bytesLeft_lt {s s' : Dict × InputStream} (h : Round s s') : bytesLeft s' < bytesLeft s := by
  obtain ⟨hdata, hround⟩ := round_advances h
  obtain ⟨rng, h⟩ := h
  obtain ⟨hok, hpos, -⟩ := loadRound_eq_some h
  have hleft : bytesLeft s = s.2.data.length - s.2.pos := by simp [bytesLeft, hok]
  rw [hleft, bytesLeft, hdata]
  split
  · omega
  · next hfail =>
    rcases hround with hle | ⟨hfail', -⟩
    · omega
    · exact absurd hfail' hfail

theorem wellFounded_round : WellFounded fun s' s => Round s s' :=
  Subrelation.wf (fun h => bytesLeft_lt h) (measure bytesLeft).wf

/-- With as much fuel as there are bytes, the loop runs until it stops. -/
theorem loadLoop_stops (rng : Nat → Nat → Nat → Nat) {fuel : Nat} {s : Dict × InputStream}
    (h : bytesLeft s < fuel) : ∃ final, Relation.ReflTransGen Round s final ∧ Stopped final ∧
      (loadLoop rng fuel s.1 s.2).1 = final.1 := by
  induction fuel generalizing s with
  | zero => omega
  | succ fuel ih =>
      rw [loadLoop_succ]
      cases hround : loadRound (rng fuel) s with
      | none => exact ⟨s, .refl, stopped_of_loadRound hround, rfl⟩
      | some s' =>
          have hstep : Round s s' := ⟨rng fuel, hround⟩
          have hlt := bytesLeft_lt hstep
          obtain ⟨final, hrun, hstop, heq⟩ := @ih s' (by omega)
          exact ⟨final, .head hstep hrun, hstop, heq⟩

/-- The stream behind the header. -/
def behindHeader (data : Bytes) : InputStream :=
  (skipSelectDb (readU8 (read 9 { data := data }).2).2).2

/-- What `Load` does with a file, without a bound on the rounds of its loop. -/
inductive Loads (data : Bytes) (db : Dict) : Bool × Dict → Prop
  | badMagic (h : (read 9 { data := data }).1 ≠ kRdbMagic) : Loads data db (false, db)
  | records {final : Dict × InputStream} (h : (read 9 { data := data }).1 = kRdbMagic)
      (hrun : Relation.ReflTransGen Round (db, behindHeader data) final) (hstop : Stopped final) :
      Loads data db (true, final.1)

theorem advances_skipSelectDb : Advances skipSelectDb 0 := by
  intro is
  have hmarker := advances_readU8 is
  have hrun : skipSelectDb is = (if (readU8 is).1 = kRdbSelectDb then
      readU32 >>= fun _ => pure () else stepBack : StreamM Unit) (readU8 is).2 := rfl
  rw [hrun]
  split
  · have hdb : Advances (readU32 >>= fun _ => pure ()) 4 := advances_readU32.bind_pure _
    exact (hmarker.trans (hdb _)).mono (by decide)
  · exact hmarker.stepBack

theorem loads_load (rng : Nat → Nat → Nat → Nat) (data : Bytes) (db : Dict) :
    Loads data db (load rng (some data) db) := by
  have hrun : load rng (some data) db = ((if (read 9 { data := data }).1 ≠ kRdbMagic then
      pure (false, db)
    else do
      let _ ← readU8
      skipSelectDb
      let db ← loadLoop rng (data.length + 1) db
      pure (true, db) : StreamM (Bool × Dict)) (read 9 { data := data }).2).1 := rfl
  rw [hrun]
  by_cases hmagic : (read 9 { data := data }).1 = kRdbMagic
  · rw [if_neg (not_not_intro hmagic)]
    have hdata : (behindHeader data).data = data :=
      ((advances_skipSelectDb _).data.trans (advances_readU8 _).data).trans (advances_read 9 _).data
    have hleft : bytesLeft (db, behindHeader data) < data.length + 1 := by
      unfold bytesLeft
      dsimp only
      rw [hdata]
      split <;> omega
    obtain ⟨final, hrun, hstop, heq⟩ := loadLoop_stops rng hleft
    have hloads := Loads.records hmagic hrun hstop
    rw [← heq] at hloads
    exact hloads
  · rw [if_pos hmagic]
    exact .badMagic hmagic

/-! ## Types and values -/

/-- `RedisObject` with nothing that ties its type to its value. -/
structure LooseObject where
  type : ObjType
  value : ValueVariant
  expireAt : Option TimePoint

namespace LooseObject

/-- `RedisObject::CreateString`. -/
def createString (s : RedisString) : LooseObject := ⟨.string, .string s, none⟩

/-- `RedisObject::CreateHash`. -/
def createHash : LooseObject := ⟨.hash, .hash ∅, none⟩

/-- `RedisObject::CreateList`. -/
def createList : LooseObject := ⟨.list, .list [], none⟩

/-- `RedisObject::CreateSet`. -/
def createSet : LooseObject := ⟨.set, .set ∅, none⟩

/-- `RedisObject::CreateZSet`. -/
def createZSet : LooseObject := ⟨.zset, .zset .new, none⟩

/-- Writing through the pointer that `As` returns; a null pointer leaves no
object. -/
def fill {α : Type} (obj : LooseObject) (as : ValueVariant → Option α) (f : α → ValueVariant) :
    Option LooseObject :=
  (as obj.value).map fun a => { obj with value := f a }

end LooseObject

/-- An object, as its two fields. -/
def loose (obj : RedisObject) : LooseObject := ⟨obj.type, obj.value, obj.expireAt⟩

open LooseObject in
/-- `RdbSaver::LoadObject`, with the type and the value of its objects apart. -/
def loadLoose (rng : Nat → Nat → Nat) (type : UInt8) : StreamM (Option LooseObject) :=
  if type = ObjType.string.code then do
    let val ← readString
    pure (some (createString val))
  else if type = ObjType.hash.code then do
    let count ← readU32
    let fields ← times readField count
    pure (createHash.fill ValueVariant.asHash fun h =>
      .hash (fields.foldl (fun h kv => h.insert kv.1 kv.2) h))
  else if type = ObjType.list.code then do
    let count ← readU32
    let vals ← times readString count
    pure (createList.fill ValueVariant.asList fun l => .list (l ++ vals))
  else if type = ObjType.set.code then do
    let count ← readU32
    let members ← times readString count
    pure (createSet.fill ValueVariant.asSet fun s =>
      .set (members.foldl (fun s member => s.insert member) s))
  else if type = ObjType.zset.code then do
    let count ← readU32
    let scores ← times readScore count
    pure (createZSet.fill ValueVariant.asZSet fun sl => .zset (insertAll rng 0 scores sl))
  else pure none

/-- What a round installs: the key, and its object unless the type is unknown. -/
def loadLooseEntry (rng : Nat → Nat → Nat) : StreamM (Bytes × Option LooseObject) := do
  let key ← readString
  let expireAt ← readExpire
  let type ← readU8
  let obj ← loadLoose rng type
  pure (key, obj.map ({ · with expireAt := expireAt }))

theorem loadLoose_eq (rng : Nat → Nat → Nat) (type : UInt8) :
    loadLoose rng type = Option.map loose <$> loadObject rng type := by
  unfold loadLoose loadObject
  split
  · rfl
  split
  · rfl
  split
  · rfl
  split
  · rfl
  split <;> rfl

/-- The objects of the model are those that are installed. -/
theorem loadLooseEntry_eq (rng : Nat → Nat → Nat) (is : InputStream) :
    loadLooseEntry rng is =
      (((loadEntry rng is).1.1, (loadEntry rng is).1.2.map loose), (loadEntry rng is).2) := by
  have hloose : loadLooseEntry rng is = ((fun key expireAt type =>
      ((key.1, (loadLoose rng type.1 type.2).1.map ({ · with expireAt := expireAt.1 })),
        (loadLoose rng type.1 type.2).2)) (readString is) (readExpire (readString is).2)
      (readU8 (readExpire (readString is).2).2)) := rfl
  have hentry : loadEntry rng is = ((fun key expireAt type =>
      ((key.1, (loadObject rng type.1 type.2).1.map (·.withExpire expireAt.1)),
        (loadObject rng type.1 type.2).2)) (readString is) (readExpire (readString is).2)
      (readU8 (readExpire (readString is).2).2)) := rfl
  rw [hloose, hentry]
  generalize readString is = key
  generalize readExpire key.2 = expireAt
  generalize readU8 expireAt.2 = type
  have hobj : loadLoose rng type.1 type.2 =
      ((loadObject rng type.1 type.2).1.map loose, (loadObject rng type.1 type.2).2) :=
    congrFun (loadLoose_eq rng type.1) type.2
  dsimp only
  rw [hobj, Option.map_map, Option.map_map]
  rfl

/-- **Loading terminates on every file**: no run of rounds is endless, a round
reads on by five bytes or is the last, `Load` returns what the rounds leave, and
the type of every object that is installed is that of its value. -/
theorem load_terminates :
    (WellFounded fun s' s : Dict × InputStream => Round s s') ∧
    (∀ s s', Round s s' →
      s'.2.data = s.2.data ∧ (s.2.pos + 5 ≤ s'.2.pos ∨ s'.2.failbit = true ∧ Stopped s')) ∧
    (∀ rng data db, Loads data db (load rng (some data) db)) ∧
    ∀ rng is,
      (loadLooseEntry rng is).1 = ((loadEntry rng is).1.1, (loadEntry rng is).1.2.map loose) ∧
      ∀ obj, (loadLooseEntry rng is).1.2 = some obj → obj.type = obj.value.objType := by
  refine ⟨wellFounded_round, fun _ _ => round_advances, loads_load, fun rng is => ?_⟩
  rw [loadLooseEntry_eq]
  refine ⟨rfl, fun obj h => ?_⟩
  obtain ⟨o, -, rfl⟩ := Option.map_eq_some_iff.mp h
  exact o.type_eq

end RdbSaver

end RedisLike
