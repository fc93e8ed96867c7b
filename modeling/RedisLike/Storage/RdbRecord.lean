import RedisLike.Storage.Rdb

/-!
# RedisLike.Storage.RdbRecord

Records of the snapshot file, as they stand in it.

A `Record` has the contents of one record in the order of its bytes, before
`LoadObject` makes a map, a set or a sorted set of them.  `loadEntry` reads every
record (`pads_loadEntry`), also one that is cut short, with zeros for what is
missing.
-/

namespace RedisLike

namespace RdbSaver

open InputStream

/-! ## Fields -/

/-- Zeros in front of nothing do not count. -/
theorem leValue_append_zeros (s : Bytes) (k : Nat) :
    leValue (s ++ List.replicate k 0) = leValue s := by
  induction s with
  | nil =>
      induction k with
      | zero => rfl
      | succ k ih =>
          have hzero : leValue (0 :: List.replicate k 0) = 256 * leValue (List.replicate k 0) := by
            simp [leValue]
          rw [List.nil_append] at ih ⊢
          rw [List.replicate_succ, hzero, ih]
          rfl
  | cons b s ih => rw [List.cons_append, leValue, leValue, ih]

/-- Any bytes are a memory image. -/
theorem leBytes_leValue (s : Bytes) : leBytes s.length (leValue s) = s := by
  induction s with
  | nil => rfl
  | cons b s ih =>
      have hlt := b.toNat_lt
      have hmod : (b.toNat + 256 * leValue s) % 256 = b.toNat := by omega
      have hdiv : (b.toNat + 256 * leValue s) / 256 = leValue s := by omega
      rw [List.length_cons, leBytes, leValue, hmod, hdiv, ih]
      simp

theorem leValue_lt (s : Bytes) : leValue s < 256 ^ s.length := by
  induction s with
  | nil => decide
  | cons b s ih =>
      have hlt := b.toNat_lt
      rw [leValue, List.length_cons, Nat.pow_succ]
      omega

theorem pads_readU8 (v : UInt8) : Pads readU8 (writeU8 v) v := by
  refine @pads_read _ [v] 1 (fun bytes => bytes.headD 0) (fun s k _ => ?_) rfl
  cases s with
  | nil => cases k <;> rfl
  | cons b s => rfl

/-- A fixed-width field is read from its memory image. -/
theorem pads_read_leBytes {α : Type} (k n : Nat) (f : Nat → α) :
    Pads ((fun bytes => f (leValue bytes)) <$> read k) (leBytes k n)
      (f (leValue (leBytes k n))) :=
  @pads_read _ (leBytes k n) k (fun bytes => f (leValue bytes))
    (fun s j _ => congrArg f (leValue_append_zeros s j)) (length_leBytes k n)

theorem pads_readU32 {n : Nat} (h : n < 2 ^ 32) : Pads readU32 (writeU32 n) n := by
  have hr := pads_read_leBytes 4 n id
  rwa [leValue_leBytes (by omega)] at hr

/-- A 64-bit pattern reads back from its memory image. -/
theorem toUInt64_leValue (v : UInt64) : (leValue (leBytes 8 v.toNat)).toUInt64 = v := by
  rw [leValue_leBytes v.toNat_lt]
  simp

theorem pads_readI64 (v : Int64) : Pads readI64 (writeI64 v) v := by
  have hr := pads_read_leBytes 8 v.toUInt64.toNat fun n => n.toUInt64.toInt64
  rwa [toUInt64_leValue, Int64.toInt64_toUInt64] at hr

theorem pads_readDouble (v : Double) : Pads readDouble (writeDouble v) v := by
  have hr := pads_read_leBytes 8 v.bits.toNat fun n => (⟨n.toUInt64⟩ : Double)
  rwa [toUInt64_leValue] at hr

theorem pads_readString {s : Bytes} (h : s.length < 2 ^ 32) :
    Pads readString (writeString s) s := by
  have hbody := @pads_read _ s s.length
    (fun bytes => bytes ++ List.replicate (s.length - bytes.length) 0) (fun t k hk => by
      have hlen : (t ++ List.replicate k (0 : UInt8)).length = s.length := by
        rw [List.length_append, List.length_replicate, hk]
      have hsub : s.length - t.length = k := by omega
      rw [hlen, Nat.sub_self, List.replicate_zero, List.append_nil, hsub]) rfl
  rw [Nat.sub_self, List.replicate_zero, List.append_nil] at hbody
  exact (pads_readU32 h).bind hbody

theorem pads_readField {p : Bytes × Bytes} (h₁ : p.1.length < 2 ^ 32)
    (h₂ : p.2.length < 2 ^ 32) :
    Pads readField (writeString p.1 ++ writeString p.2) p :=
  (pads_readString h₁).bind ((pads_readString h₂).bind_pure fun val => (p.1, val))

theorem pads_readScore {p : Bytes × Double} (h : p.1.length < 2 ^ 32) :
    Pads readScore (writeString p.1 ++ writeDouble p.2) p :=
  (pads_readString h).bind ((pads_readDouble p.2).bind_pure fun score => (p.1, score))

/-! ## Values -/

/-- The value of a record, in the order of the file. -/
inductive RawValue where
  | string (s : Bytes)
  | hash (fields : List (Bytes × Bytes))
  | list (vals : List Bytes)
  | set (members : List Bytes)
  | zset (scores : List (Bytes × Double))

/-- A count and as many elements. -/
def counted {α : Type} (write : α → Bytes) (as : List α) : Bytes :=
  writeU32 as.length ++ (as.map write).flatten

/-- A field and its value. -/
def writeField (p : Bytes × Bytes) : Bytes := writeString p.1 ++ writeString p.2

/-- A member and its score. -/
def writeScore (p : Bytes × Double) : Bytes := writeString p.1 ++ writeDouble p.2

namespace RawValue

def objType : RawValue → ObjType
  | string _ => .string
  | hash _ => .hash
  | list _ => .list
  | set _ => .set
  | zset _ => .zset

/-- The bytes behind the type. -/
def payload : RawValue → Bytes
  | string s => writeString s
  | hash fields => counted writeField fields
  | list vals => counted writeString vals
  | set members => counted writeString members
  | zset scores => counted writeScore scores

/-- The bytes of a value, its type first. -/
def bytes (v : RawValue) : Bytes := writeU8 v.objType.code ++ v.payload

/-- The object that `LoadObject` makes of a value. -/
def object (rng : Nat → Nat → Nat) : RawValue → RedisObject
  | string s => RedisObject.createString s
  | hash fields => RedisObject.createHash.withValue
      (.hash (fields.foldl (fun h kv => h.insert kv.1 kv.2) ∅))
  | list vals => RedisObject.createList.withValue (.list vals)
  | set members => RedisObject.createSet.withValue
      (.set (members.foldl (fun s member => s.insert member) ∅))
  | zset scores => RedisObject.createZSet.withValue (.zset (insertAll rng 0 scores .new))

/-- The lengths and counts of a value fit their fields. -/
def Small : RawValue → Prop
  | string s => s.length < 2 ^ 32
  | hash fields => fields.length < 2 ^ 32 ∧
      ∀ p ∈ fields, p.1.length < 2 ^ 32 ∧ p.2.length < 2 ^ 32
  | list vals => vals.length < 2 ^ 32 ∧ ∀ s ∈ vals, s.length < 2 ^ 32
  | set members => members.length < 2 ^ 32 ∧ ∀ m ∈ members, m.length < 2 ^ 32
  | zset scores => scores.length < 2 ^ 32 ∧ ∀ p ∈ scores, p.1.length < 2 ^ 32

end RawValue

/-- A counted loop reads what the loop of the writer wrote. -/
theorem pads_counted {α β : Type} {x : StreamM α} {write : α → Bytes} {as : List α}
    (hlen : as.length < 2 ^ 32) (hx : ∀ a ∈ as, Pads x (write a) a) (f : List α → β) :
    Pads (do let count ← readU32; let as ← times x count; pure (f as)) (counted write as) (f as) :=
  (pads_readU32 hlen).bind ((pads_times hx).bind_pure f)

/-- `LoadObject` behind the type byte. -/
theorem pads_loadObject (rng : Nat → Nat → Nat) {v : RawValue} (h : v.Small) :
    Pads (loadObject rng v.objType.code) v.payload (some (v.object rng)) := by
  cases v with
  | string s => exact (pads_readString h).bind_pure _
  | hash fields =>
      exact pads_counted h.1 (fun p hp => pads_readField (h.2 p hp).1 (h.2 p hp).2)
        fun fields : List (Bytes × Bytes) => some (RedisObject.createHash.withValue
          (.hash (fields.foldl (fun (h : RedisHash) (kv : Bytes × Bytes) => h.insert kv.1 kv.2) ∅)))
  | list vals =>
      exact pads_counted h.1 (fun s hs => pads_readString (h.2 s hs))
        fun vals => some (RedisObject.createList.withValue (.list vals))
  | set members =>
      exact pads_counted h.1 (fun m hm => pads_readString (h.2 m hm))
        fun members => some (RedisObject.createSet.withValue
          (.set (members.foldl (fun s member => s.insert member) ∅)))
  | zset scores =>
      exact pads_counted h.1 (fun p hp => pads_readScore (h.2 p hp))
        fun scores : List (Bytes × Double) => some (RedisObject.createZSet.withValue
          (.zset (insertAll rng 0 scores .new)))

/-! ## Deadlines -/

theorem toInt_million : (1000000 : Int64).toInt = 1000000 := by decide

theorem tdiv_million_bounds (at_ : TimePoint) :
    -9223372036854 ≤ at_.toInt.tdiv 1000000 ∧ at_.toInt.tdiv 1000000 ≤ 9223372036854 := by
  have hle := Int64.le_toInt at_
  have hlt := Int64.toInt_lt at_
  rcases Int.le_total 0 at_.toInt with hpos | hneg
  · rw [Int.tdiv_eq_ediv_of_nonneg hpos]
    omega
  · have hdiv : at_.toInt.tdiv 1000000 = -((-at_.toInt) / 1000000) := by
      rw [← Int.tdiv_eq_ediv_of_nonneg (Int.neg_nonneg.mpr hneg), Int.neg_tdiv, Int.neg_neg]
    omega

/-- The milliseconds of a deadline, as a number. -/
theorem toInt_toMilliseconds (at_ : TimePoint) :
    (toMilliseconds at_).toInt = at_.toInt.tdiv 1000000 := by
  obtain ⟨hlow, hhigh⟩ := tdiv_million_bounds at_
  rw [toMilliseconds, Int64.toInt_div, toInt_million]
  exact Int.bmod_eq_of_le (by omega) (by omega)

/-- They are far from the ends of their type. -/
theorem toMilliseconds_bounds (at_ : TimePoint) :
    -2 ^ 44 < (toMilliseconds at_).toInt ∧ (toMilliseconds at_).toInt < 2 ^ 44 := by
  obtain ⟨hlow, hhigh⟩ := tdiv_million_bounds at_
  rw [toInt_toMilliseconds]
  omega

/-- A deadline that was saved and loaded is cut to milliseconds, towards zero. -/
theorem toInt_ofMilliseconds (at_ : TimePoint) :
    (ofMilliseconds (toMilliseconds at_)).toInt = at_.toInt.tdiv 1000000 * 1000000 := by
  obtain ⟨hlow, hhigh⟩ := tdiv_million_bounds at_
  rw [ofMilliseconds, Int64.toInt_mul, toInt_million, toInt_toMilliseconds]
  exact Int.bmod_eq_of_le (by omega) (by omega)

/-- The bytes of a deadline in milliseconds. -/
def writeDeadline : Option Int64 → Bytes
  | some ms => writeU8 kRdbExpireMs ++ writeI64 ms
  | none => []

/-- No type reads as the marker of a deadline. -/
theorem code_ne_kRdbExpireMs (t : ObjType) : t.code ≠ kRdbExpireMs := by
  cases t <;> decide

/-- Without the marker, the byte is put back. -/
theorem readExpire_of_ne {is : InputStream} {b : UInt8} {rest : Bytes} (h : is.Before (b :: rest))
    (hb : b ≠ kRdbExpireMs) : readExpire is = (none, is) := by
  obtain ⟨hread, hback⟩ := stepBack_read h
  have hval : (readU8 is).1 = b := by
    rw [readU8]
    exact congrArg (fun bytes : Bytes => bytes.headD 0) hread
  have hrun : readExpire is = (none, (stepBack (readU8 is).2).2) := by
    rw [readExpire]
    change (if (readU8 is).1 = kRdbExpireMs then _ else _ : StreamM (Option TimePoint))
      (readU8 is).2 = _
    rw [hval, if_neg hb]
    rfl
  rw [hrun]
  exact congrArg (Prod.mk none) hback

/-- At the end of the file there is no deadline either, and the stream fails. -/
theorem readExpire_of_nil {is : InputStream} (h : Short is []) :
    (readExpire is).1 = none ∧ Short (readExpire is).2 [] := by
  obtain ⟨hval, hshort, -⟩ := pads_readU8 0 is [] h rfl
  have hfail : (readU8 is).2.failbit = true := failbit_read h (by decide)
  have hrun : readExpire is = (none, (stepBack (readU8 is).2).2) := by
    rw [readExpire]
    change (if (readU8 is).1 = kRdbExpireMs then _ else _ : StreamM (Option TimePoint))
      (readU8 is).2 = _
    rw [hval, if_neg (by decide)]
    rfl
  rw [hrun]
  refine ⟨rfl, .inr ⟨?_, rfl⟩⟩
  simp only [stepBack, hfail, if_true]

theorem pads_readExpire_bind {β : Type} {f : Option TimePoint → StreamM β} {d : Option Int64}
    {b : UInt8} {bytes : Bytes} {r : β} (hb : b ≠ kRdbExpireMs)
    (hf : Pads (f (d.map ofMilliseconds)) (b :: bytes) r) :
    Pads (readExpire >>= f) (writeDeadline d ++ (b :: bytes)) r := by
  cases d with
  | none =>
      intro is rest h hfill
      have hbind : (readExpire >>= f) is = f (readExpire is).1 (readExpire is).2 := rfl
      rw [hbind]
      cases rest with
      | nil =>
          obtain ⟨hval, hshort⟩ := readExpire_of_nil h
          rw [hval]
          obtain ⟨hr, hshort', -⟩ := hf _ _ hshort hfill
          exact ⟨hr, hshort', fun _ hle => absurd hle (by simp [writeDeadline])⟩
      | cons b' rest =>
          have his : is.Before (b' :: rest) := h.resolve_right fun hnil => by cases hnil.2
          have hb' : b' = b := by
            have hcons : b' :: pad bytes.length rest = b :: bytes := hfill
            exact (List.cons.inj hcons).1
          rw [readExpire_of_ne his (hb' ▸ hb)]
          exact hf is _ h hfill
  | some ms =>
      have hmarker : Pads readExpire (writeDeadline (some ms)) (some (ofMilliseconds ms)) := by
        refine (pads_readU8 kRdbExpireMs).bind ?_
        rw [if_pos rfl]
        exact (pads_readI64 ms).bind_pure fun ms => some (ofMilliseconds ms)
      exact hmarker.bind hf

/-! ## Records -/

/-- One record of the file. -/
structure Record where
  key : Bytes
  deadline : Option Int64
  value : RawValue

namespace Record

def bytes (r : Record) : Bytes := writeString r.key ++ (writeDeadline r.deadline ++ r.value.bytes)

/-- The object that loading a record gives. -/
def object (rng : Nat → Nat → Nat) (r : Record) : RedisObject :=
  (r.value.object rng).withExpire (r.deadline.map ofMilliseconds)

structure Small (r : Record) : Prop where
  key : r.key.length < 2 ^ 32
  value : r.value.Small

end Record

/-- The part of a round of `RdbSaver::Load` that follows the key. -/
def readObject (rng : Nat → Nat → Nat) : StreamM (Option RedisObject) := do
  let expireAt ← readExpire
  let type ← readU8
  let obj ← loadObject rng type
  pure (obj.map (·.withExpire expireAt))

theorem loadEntry_eq (rng : Nat → Nat → Nat) :
    loadEntry rng = readString >>= fun key => readObject rng >>= fun obj => pure (key, obj) := rfl

theorem pads_readObject (rng : Nat → Nat → Nat) (deadline : Option Int64) {v : RawValue}
    (h : v.Small) : Pads (readObject rng) (writeDeadline deadline ++ v.bytes)
      (some ((v.object rng).withExpire (deadline.map ofMilliseconds))) := by
  refine pads_readExpire_bind (code_ne_kRdbExpireMs _) ((pads_readU8 v.objType.code).bind ?_)
  exact (pads_loadObject rng h).bind_pure (·.map (·.withExpire (deadline.map ofMilliseconds)))

/-- **One round of the loop reads one record**, or what is left of it. -/
theorem pads_loadEntry (rng : Nat → Nat → Nat) {r : Record} (h : r.Small) :
    Pads (loadEntry rng) r.bytes (r.key, some (r.object rng)) := by
  rw [loadEntry_eq]
  exact (pads_readString h.key).bind
    ((pads_readObject rng r.deadline h.value).bind_pure fun obj => (r.key, obj))

/-! ## Sorted sets -/

/-- Inserting pairs with different members, none of them in the list yet: each
member gets its score, and the others keep theirs. -/
theorem getScore_insertAll (rng : Nat → Nat → Nat) {items : List (Bytes × Double)} {i : Nat}
    {sl : SkipList} (hnodup : (items.map Prod.fst).Nodup)
    (hnew : ∀ p ∈ items, sl.getScore p.1 = none) :
    (∀ p ∈ items, (insertAll rng i items sl).getScore p.1 = some p.2) ∧
      ∀ m ∉ items.map Prod.fst, (insertAll rng i items sl).getScore m = sl.getScore m := by
  induction items generalizing i sl with
  | nil => exact ⟨nofun, fun _ _ => rfl⟩
  | cons p items ih =>
      rw [List.map_cons, List.nodup_cons] at hnodup
      have hscore := SkipList.getScore_insert_of_absent (hnew p List.mem_cons_self) p.2
        (randomLevel (rng i))
      obtain ⟨hmem, hother⟩ := @ih (i + 1) (sl.insert p.2 p.1 (randomLevel (rng i))).2 hnodup.2
        (fun q hq => by
          have hne : q.1 ≠ p.1 := fun he => hnodup.1 (he ▸ List.mem_map_of_mem hq)
          rw [hscore, if_neg hne]
          exact hnew q (List.mem_cons_of_mem p hq))
      refine ⟨List.forall_mem_cons.mpr ⟨?_, hmem⟩, fun m hm => ?_⟩
      · rw [insertAll, hother p.1 hnodup.1, hscore, if_pos rfl]
      · rw [List.map_cons, List.mem_cons, not_or] at hm
        rw [insertAll, hother m hm.2, hscore, if_neg hm.1]

/-- Every score of the list is one of those that were inserted. -/
theorem mem_of_getScore_insertAll (rng : Nat → Nat → Nat) {items : List (Bytes × Double)}
    {i : Nat} {sl : SkipList} {m : Bytes} {s : Double}
    (h : (insertAll rng i items sl).getScore m = some s) :
    (m, s) ∈ items ∨ sl.getScore m = some s := by
  induction items generalizing i sl with
  | nil => exact .inr h
  | cons p items ih =>
      rcases ih h with hmem | hs
      · exact .inl (List.mem_cons_of_mem p hmem)
      · exact (SkipList.getScore_of_insert hs).imp_left fun he => List.mem_cons.mpr (.inl he)

/-! ## What is saved -/

/-- A value in the order in which `SaveObject` writes it. -/
def raw : ValueVariant → RawValue
  | .string s => .string s
  | .hash h => .hash h.pairs
  | .list l => .list l
  | .set s => .set s.elems
  | .zset sl => .zset ((sl.rangeByRank 0 ((sl.size : Int) - 1)).map fun m =>
      (m, (sl.getScore m).getD (Double.ofMagnitude false 0)))

/-- The record of an entry. -/
def record (kv : Bytes × RedisObject) : Record where
  key := kv.1
  deadline := kv.2.expireAt.map toMilliseconds
  value := raw kv.2.value

theorem saveValue_eq (v : ValueVariant) : saveValue v = (raw v).bytes := by
  cases v with
  | string s => rfl
  | hash h =>
      have hsize : h.size = h.pairs.length := by simp [UnorderedMap.size, UnorderedMap.pairs]
      rw [saveValue, saveHash, hsize, List.append_assoc]
      rfl
  | list l =>
      rw [saveValue, saveList, List.append_assoc]
      rfl
  | set s =>
      rw [saveValue, saveSet, List.append_assoc]
      rfl
  | zset sl =>
      rw [saveValue, saveZSet, List.append_assoc, raw, RawValue.bytes, RawValue.payload, counted,
        List.length_map, List.map_map]
      rfl

theorem saveObject_eq (obj : RedisObject) :
    saveObject obj = writeDeadline (obj.expireAt.map toMilliseconds) ++ (raw obj.value).bytes := by
  rw [saveObject, saveValue_eq]
  cases obj.expireAt <;> rfl

theorem saveEntry_eq (kv : Bytes × RedisObject) : saveEntry kv = (record kv).bytes := by
  rw [saveEntry, saveObject_eq]
  rfl

end RdbSaver

end RedisLike
