import RedisLike.Storage.RdbLoop

/-!
# RedisLike.Storage.RdbRoundTrip

`Load` of what `Save` wrote.

The loop of `Load` tells a record from the end of the file by one byte, the low
byte of the length of the next key, so a key whose length is 255 modulo 256
reads as the end: `load_save_iff`.
-/

namespace RedisLike

namespace RdbSaver

open InputStream

/-! ## Values -/

/-- The lengths and counts of a value fit their fields. -/
def Small : ValueVariant → Prop
  | .string s => s.length < 2 ^ 32
  | .hash h => h.size < 2 ^ 32 ∧ ∀ p ∈ h.pairs, p.1.length < 2 ^ 32 ∧ p.2.length < 2 ^ 32
  | .list l => l.length < 2 ^ 32 ∧ ∀ s ∈ l, s.length < 2 ^ 32
  | .set s => s.size < 2 ^ 32 ∧ ∀ m ∈ s.elems, m.length < 2 ^ 32
  | .zset sl => sl.size < 2 ^ 32 ∧ ∀ p ∈ sl.items, p.1.length < 2 ^ 32

/-- A value that fits, with the invariant that `Insert` and `Delete` give a
sorted set. -/
structure Fits (v : ValueVariant) : Prop where
  small : Small v
  wellFormed : v.WellFormed

/-- The object that loading a saved value gives. -/
def loaded (rng : Nat → Nat → Nat) : ValueVariant → RedisObject
  | .string s => RedisObject.createString s
  | .hash h => RedisObject.createHash.withValue
      (.hash (h.pairs.foldl (fun h kv => h.insert kv.1 kv.2) ∅))
  | .list l => RedisObject.createList.withValue (.list l)
  | .set s => RedisObject.createSet.withValue
      (.set (s.elems.foldl (fun s member => s.insert member) ∅))
  | .zset sl => RedisObject.createZSet.withValue (.zset (insertAll rng 0 sl.items .new))

/-- `SaveZSet` writes the pairs of a well-formed list. -/
theorem raw_zset {sl : SkipList} (h : sl.Valid) : raw (.zset sl) = .zset sl.items := by
  have hscore : ∀ p ∈ sl.items, sl.getScore p.1 = some p.2 := fun p hp => h.mem_items.mp hp
  rw [raw, h.rangeByRank_all, List.map_map]
  refine congrArg RawValue.zset ((List.map_congr_left fun p hp => ?_).trans (List.map_id _))
  rw [Function.comp_apply, hscore p hp, Option.getD_some]
  rfl

theorem Fits.small_raw {v : ValueVariant} (h : Fits v) : (raw v).Small := by
  cases v with
  | string s => exact h.small
  | hash hm =>
      have hsize : hm.size = hm.pairs.length := by simp [UnorderedMap.size, UnorderedMap.pairs]
      exact ⟨hsize ▸ h.small.1, h.small.2⟩
  | list l => exact h.small
  | set s => exact h.small
  | zset sl =>
      have hv : sl.Valid := h.wellFormed
      have hsize : sl.size = sl.items.length := by
        rw [hv.inv.size_eq, SkipList.items, List.length_map]
      rw [raw_zset hv]
      exact ⟨hsize ▸ h.small.1, h.small.2⟩

theorem Fits.object_raw (rng : Nat → Nat → Nat) {v : ValueVariant} (h : Fits v) :
    (raw v).object rng = loaded rng v := by
  cases v with
  | zset sl =>
      rw [raw_zset h.wellFormed]
      rfl
  | _ => rfl

/-- Scores that are numbers keep the list well formed. -/
theorem insertAll_valid (rng : Nat → Nat → Nat) {items : List (Bytes × Double)} {i : Nat}
    {sl : SkipList} (hv : sl.Valid) (hnan : ∀ p ∈ items, p.2.isNaN = false) :
    (insertAll rng i items sl).Valid := by
  induction items generalizing i sl with
  | nil => exact hv
  | cons p items ih =>
      exact ih (SkipList.insert_valid hv p.1 (randomLevel (rng i)) (hnan p List.mem_cons_self))
        fun q hq => hnan q (List.mem_cons_of_mem p hq)

/-- A list loaded from the pairs of a well-formed one is well formed, with the
same scores. -/
theorem insertAll_items (rng : Nat → Nat → Nat) {sl : SkipList} (h : sl.Valid) :
    (insertAll rng 0 sl.items .new).Valid ∧
      (insertAll rng 0 sl.items .new).getScore = sl.getScore := by
  have hnan : ∀ p ∈ sl.items, p.2.isNaN = false := by
    intro p hp
    obtain ⟨a, ha, rfl⟩ := List.mem_map.mp hp
    exact h.inv.notNaN a ha
  obtain ⟨hmem, hother⟩ := @getScore_insertAll rng sl.items 0 .new h.nodup_members fun _ _ => rfl
  refine ⟨insertAll_valid rng SkipList.valid_new hnan, funext fun m => ?_⟩
  cases hs : sl.getScore m with
  | some s => exact hmem (m, s) (h.mem_items.mpr hs)
  | none =>
      refine hother m fun hm => ?_
      obtain ⟨p, hp, rfl⟩ := List.mem_map.mp hm
      rw [h.mem_items.mp hp] at hs
      contradiction

/-- A loaded value has the contents of the saved one. -/
theorem loaded_same (rng : Nat → Nat → Nat) {v : ValueVariant} (h : Fits v) :
    (loaded rng v).value.Same v ∧ (loaded rng v).WellFormed := by
  cases v with
  | string s => exact ⟨rfl, trivial⟩
  | hash hm => exact ⟨hm.lookup_foldl_insert_pairs, trivial⟩
  | list l => exact ⟨rfl, trivial⟩
  | set s =>
      refine ⟨fun m => ?_, trivial⟩
      rw [UnorderedSet.mem_foldl_insert]
      exact or_iff_left (UnorderedSet.notMem_empty m)
  | zset sl =>
      obtain ⟨hv, hs⟩ := insertAll_items rng h.wellFormed
      exact ⟨SkipList.same_of_getScore_eq hv h.wellFormed hs, hv⟩

/-! ## Records -/

/-- An object with its deadline as the file keeps it. -/
def truncated (obj : RedisObject) : RedisObject :=
  obj.withExpire (obj.expireAt.map fun at_ => ofMilliseconds (toMilliseconds at_))

/-- The object that loading a saved record gives. -/
def loadedObject (rng : Nat → Nat → Nat) (obj : RedisObject) : RedisObject :=
  (loaded rng obj.value).withExpire
    (obj.expireAt.map fun at_ => ofMilliseconds (toMilliseconds at_))

theorem loadedObject_same (rng : Nat → Nat → Nat) {obj : RedisObject} (h : Fits obj.value) :
    (loadedObject rng obj).Same (truncated obj) ∧ (loadedObject rng obj).WellFormed :=
  ⟨RedisObject.same_iff.mpr ⟨(loaded_same rng h).1, rfl⟩, (loaded_same rng h).2⟩

theorem Fits.object_record (rng : Nat → Nat → Nat) {kv : Bytes × RedisObject}
    (h : Fits kv.2.value) : (record kv).object rng = loadedObject rng kv.2 := by
  rw [Record.object, record, h.object_raw, Option.map_map]
  rfl

/-! ## The file -/

/-- Every key, length and count fits its field of the file. -/
structure FitsRdb (db : Dict) : Prop where
  keys : ∀ key ∈ db.keys, key.length < 2 ^ 32
  values : ∀ key obj, db.get key = some obj → Fits obj.value

theorem FitsRdb.small_record {db : Dict} (h : FitsRdb db) : ∀ kv ∈ db.pairs, (record kv).Small := by
  intro kv hkv
  have hget : db.get kv.1 = some kv.2 := UnorderedMap.mem_pairs.mp hkv
  have hkey : kv.1 ∈ db.keys := by
    rw [Dict.mem_keys, hget]
    rfl
  exact ⟨h.keys kv.1 hkey, (h.values kv.1 kv.2 hget).small_raw⟩

/-- **What `Load` makes of a saved file**: it succeeds, and holds the records in
front of the first key that reads as the end of the file. -/
theorem load_save (rng : Nat → Nat → Nat → Nat) {db : Dict} (h : FitsRdb db) :
    (load rng (some (save db)) ∅).1 = true ∧
      (∀ kv ∈ db.pairs.takeWhile Plain, ∃ obj,
        (load rng (some (save db)) ∅).2.get kv.1 = some obj ∧ obj.Same (truncated kv.2) ∧
          obj.WellFormed) ∧
      ∀ key ∉ (db.pairs.takeWhile Plain).map Prod.fst,
        (load rng (some (save db)) ∅).2.get key = none := by
  have hle : (db.pairs.map saveEntry).flatten.length ≤ (save db).length := by
    rw [save, List.length_append, List.length_append]
    omega
  obtain ⟨hrecords, hcut⟩ := loadedRecords_of_le ⟨[], none, .string []⟩ hle
  obtain ⟨hok, hstores⟩ := load_take rng h.small_record ⟨[], none, .string []⟩ (save db).length
    fun kv m hkv => by rw [hcut] at hkv; contradiction
  rw [List.take_of_length_le (Nat.le_add_left _ _)] at hok hstores
  rw [hrecords] at hstores
  have hkeys : ((db.pairs.takeWhile Plain).map record).map Record.key =
      (db.pairs.takeWhile Plain).map Prod.fst := List.map_map
  have hnodup : (((db.pairs.takeWhile Plain).map record).map Record.key).Nodup := by
    rw [hkeys]
    exact (UnorderedMap.nodup_map_fst_pairs db).sublist
      ((List.takeWhile_sublist Plain).map Prod.fst)
  refine ⟨hok, fun kv hkv => ?_, fun key hkey => ?_⟩
  · obtain ⟨rng', hget⟩ := hstores.get_of_nodup hnodup (List.mem_map_of_mem hkv)
    have hfits : Fits kv.2.value := h.values kv.1 kv.2
      (UnorderedMap.mem_pairs.mp ((List.takeWhile_sublist Plain).subset hkv))
    rw [hfits.object_record] at hget
    exact ⟨_, hget, loadedObject_same rng' hfits⟩
  · rw [← hkeys] at hkey
    exact hstores.get_of_notMem hkey

/-- `Load` of the saved file into an empty key space gives the same objects, with
the deadlines truncated to milliseconds. -/
def RoundTrips (rng : Nat → Nat → Nat → Nat) (db : Dict) : Prop :=
  (load rng (some (save db)) ∅).1 = true ∧ ∀ key, Option.Rel RedisObject.Same
    ((load rng (some (save db)) ∅).2.get key) ((db.get key).map truncated)

/-- **`Load` undoes `Save`, unless a key reads as the end of the file**: exactly
when no key has a length whose low byte is `kRdbEof`. -/
theorem load_save_iff (rng : Nat → Nat → Nat → Nat) {db : Dict} (h : FitsRdb db) :
    RoundTrips rng db ↔ ∀ key ∈ db.keys, key.length % 256 ≠ 255 := by
  obtain ⟨hok, hmem, hother⟩ := load_save rng h
  have hkeys : db.pairs.map Prod.fst = db.keys := UnorderedMap.map_fst_pairs db
  constructor
  · intro hrt
    -- a key that is not in front of such a one is not loaded
    have hall : db.pairs.takeWhile Plain = db.pairs := by
      refine (List.takeWhile_sublist Plain).eq_of_length_le ?_
      have hsub : db.pairs.map Prod.fst ⊆ (db.pairs.takeWhile Plain).map Prod.fst := by
        intro key hkey
        by_contra hnot
        have hrel := hrt.2 key
        obtain ⟨kv, hkv, rfl⟩ := List.mem_map.mp hkey
        have hget : db.get kv.1 = some kv.2 := UnorderedMap.mem_pairs.mp hkv
        rw [hother _ hnot, hget] at hrel
        cases hrel
      have := ((UnorderedMap.nodup_map_fst_pairs db).subperm hsub).length_le
      simpa using this
    intro key hkey
    rw [← hkeys] at hkey
    obtain ⟨kv, hkv, rfl⟩ := List.mem_map.mp hkey
    have hplain := List.takeWhile_eq_self_iff.mp hall kv hkv
    simpa [Plain] using hplain
  · intro hplain
    have hall : db.pairs.takeWhile Plain = db.pairs := by
      refine List.takeWhile_eq_self_iff.mpr fun kv hkv => ?_
      have := hplain kv.1 (hkeys ▸ List.mem_map_of_mem hkv)
      simpa [Plain] using this
    rw [hall] at hmem hother
    refine ⟨hok, fun key => ?_⟩
    cases hg : db.get key with
    | none =>
        have hnot : key ∉ db.pairs.map Prod.fst := by
          rw [hkeys, Dict.mem_keys, hg]
          simp
        rw [hother key hnot]
        exact Option.Rel.none
    | some obj =>
        obtain ⟨obj', hobj, hsame, -⟩ := hmem (key, obj) (UnorderedMap.mem_pairs.mpr hg)
        rw [hobj]
        exact Option.Rel.some hsame

theorem fitsRdb_single {key : Bytes} {obj : RedisObject} (hkey : key.length < 2 ^ 32)
    (h : Fits obj.value) : FitsRdb ((∅ : Dict).set key obj) := by
  constructor
  · intro k hk
    rw [Dict.mem_keys, Dict.get_set, Dict.get_empty] at hk
    by_cases he : k = key
    · rwa [he]
    · simp [he] at hk
  · intro k obj' hk
    rw [Dict.get_set, Dict.get_empty] at hk
    by_cases he : k = key
    · simp only [he, if_true, Option.some.injEq] at hk
      rwa [← hk]
    · simp [he] at hk

theorem load_save_iff_single :
    RoundTrips (fun _ _ _ => 0) ((∅ : Dict).set (ascii "k") (RedisObject.createString (ascii "v"))) ↔
      ∀ key ∈ ((∅ : Dict).set (ascii "k") (RedisObject.createString (ascii "v"))).keys,
        key.length % 256 ≠ 255 :=
  load_save_iff (fun _ _ _ => 0) (fitsRdb_single (by decide)
    ⟨(by decide : (ascii "v").length < 2 ^ 32), trivial⟩)

/-- A key of 255 bytes is lost. -/
theorem load_save_longKey :
    FitsRdb ((∅ : Dict).set (List.replicate 255 120) (RedisObject.createString [])) ∧
      ((load (fun _ _ _ => 0)
        (some (save ((∅ : Dict).set (List.replicate 255 120) (RedisObject.createString []))))
        ∅).2.get (List.replicate 255 120)).isSome = false ∧
      ¬ RoundTrips (fun _ _ _ => 0)
        ((∅ : Dict).set (List.replicate 255 120) (RedisObject.createString [])) := by
  have hfits : FitsRdb ((∅ : Dict).set (List.replicate 255 120) (RedisObject.createString [])) :=
    fitsRdb_single (by rw [List.length_replicate]; decide) ⟨(by decide : [].length < 2 ^ 32), trivial⟩
  have hpairs : UnorderedMap.pairs ((∅ : Dict).set (List.replicate 255 120)
      (RedisObject.createString [])) = [(List.replicate 255 120, RedisObject.createString [])] := rfl
  have hplain : Plain (List.replicate 255 120, RedisObject.createString []) = false := by
    rw [Plain, List.length_replicate]
    rfl
  have hlost := (load_save (fun _ _ _ => 0) hfits).2.2 (List.replicate 255 120) (by
    rw [hpairs, List.takeWhile_cons_of_neg (by rw [hplain]; decide)]
    exact List.not_mem_nil)
  refine ⟨hfits, by rw [hlost]; rfl, fun hrt => ?_⟩
  have hrel := hrt.2 (List.replicate 255 120)
  rw [hlost, Dict.get_set, if_pos rfl] at hrel
  cases hrel

end RdbSaver

end RedisLike
