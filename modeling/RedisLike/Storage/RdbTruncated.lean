import RedisLike.Storage.RdbCut
import RedisLike.Storage.RdbRoundTrip

/-!
# RedisLike.Storage.RdbTruncated

`Load` of a snapshot that a crash cut short.

`Save` rewrites the live file in place, so a crash leaves the first bytes of it.
`Load` stores the records that are all there, and then what is left of the next
one, with zeros for what is missing.  So it invents an entry unless the zeros
were what was missing, or make up another entry of the key space:
`load_take_iff`.
-/

namespace RedisLike

namespace RdbSaver

open InputStream

/-- Every length and count fits its field of the file, and a sorted set lists the
members that have a score. -/
structure FitsFile (db : Dict) : Prop where
  small : ∀ kv ∈ db.pairs, (record kv).Small
  listed : ∀ kv ∈ db.pairs, kv.2.value.Listed

theorem FitsRdb.fitsFile {db : Dict} (h : FitsRdb db) : FitsFile db :=
  ⟨h.small_record, fun kv hkv => (h.values kv.1 kv.2 (UnorderedMap.mem_pairs.mp hkv)).wellFormed.listed⟩

/-! ## Records -/

/-- A record that is all there gives the entry that was saved. -/
theorem object_record_agrees (rng : Nat → Nat → Nat) {kv : Bytes × RedisObject}
    (h : kv.2.value.Listed) : ((record kv).object rng).Agrees (truncated kv.2) := by
  refine RedisObject.agrees_iff.mpr ⟨object_raw_agrees rng h, ?_⟩
  exact Option.map_map ofMilliseconds toMilliseconds kv.2.expireAt

/-- If what is left of a record reads as an entry of the key space, it is the
record of that entry. -/
theorem record_eq_of_completes (rng : Nat → Nat → Nat) {kv : Bytes × RedisObject} {r : Record}
    {obj : RedisObject} (hsmall : (record kv).Small) (hlisted : kv.2.value.Listed)
    (h : (record kv).Completes r) (hkey : r.key = kv.1 → obj = kv.2)
    (hagree : (r.object rng).Agrees (truncated obj)) : record (r.key, obj) = r := by
  have hempty : ∀ v : ValueVariant, (ValueVariant.string []).Agrees v → raw v = .string [] := by
    intro v hv
    cases v with
    | string s => exact congrArg RawValue.string (Eq.symm hv)
    | _ => exact hv.elim
  cases h with
  | key key =>
      have hnone : obj.expireAt = none := by
        have hexpire : none = obj.expireAt.map fun at_ => ofMilliseconds (toMilliseconds at_) :=
          hagree.expireAt
        exact Option.map_eq_none_iff.mp hexpire.symm
      have hraw : raw obj.value = .string [] := hempty _ hagree.value
      rw [record, hraw, hnone]
      rfl
  | @deadline ms ms' hms hms' =>
      obtain rfl := hkey rfl
      obtain ⟨at_, hat, rfl⟩ := Option.map_eq_some_iff.mp hms
      have hexpire : some (ofMilliseconds ms') =
          kv.2.expireAt.map fun at_ => ofMilliseconds (toMilliseconds at_) := hagree.expireAt
      rw [hat, Option.map_some, Option.some.injEq] at hexpire
      have hsame : ms' = toMilliseconds at_ :=
        hms'.elim id fun hlt => eq_of_ofMilliseconds hlt hexpire
      have hraw : raw kv.2.value = .string [] := hempty _ hagree.value
      rw [record, hraw, hat, hsame]
      rfl
  | value hv =>
      obtain rfl := hkey rfl
      rw [eq_raw_of_completes rng hsmall.value hlisted hv hagree.value]
      rfl

/-! ## The file -/

/-- Every entry that `Load` makes of the first `n` bytes of the file is one of the
key space. -/
def NeverInvents (rng : Nat → Nat → Nat → Nat) (db : Dict) (n : Nat) : Prop :=
  ∀ key obj, (load rng (some ((save db).take n)) ∅).2.get key = some obj →
    ∃ obj', db.get key = some obj' ∧ obj.Agrees (truncated obj')

/-- A header that is cut short loads nothing. -/
theorem load_take_header (rng : Nat → Nat → Nat → Nat) (db : Dict) {n : Nat}
    (h : n < header.length) : (load rng (some ((save db).take n)) ∅).2 = ∅ := by
  have htake : (save db).take n = header.take n := by
    rw [save, List.append_assoc, List.take_append_of_le_length h.le]
  rw [htake]
  have hlen : header.length = 15 := rfl
  rw [hlen] at h
  interval_cases n <;> rfl

theorem cutAt_zero (kvs : List (Bytes × RedisObject)) : cutAt 0 kvs = none := by
  cases kvs with
  | nil => rfl
  | cons kv kvs => rw [cutAt, if_pos (.inl rfl)]

/-- **A snapshot that is cut short invents nothing, unless a record is cut** and
what is left of it, with zeros for the rest, is no entry of the key space. -/
theorem load_take_iff (rng : Nat → Nat → Nat → Nat) {db : Dict} (h : FitsFile db) (n : Nat) :
    NeverInvents rng db n ↔
      ∀ kv m, cutAt (n - header.length) db.pairs = some (kv, m) →
        ∃ kv' ∈ db.pairs, Fills (saveEntry kv') ((saveEntry kv).take m) := by
  by_cases hn : n < header.length
  · have hcut : cutAt (n - header.length) db.pairs = none := by
      rw [Nat.sub_eq_zero_of_le hn.le, cutAt_zero]
    refine iff_of_true (fun key obj hget => ?_) fun kv m hkv => ?_
    · rw [load_take_header rng db hn, Dict.get_empty] at hget
      contradiction
    · rw [hcut] at hkv
      contradiction
  · obtain ⟨n, rfl⟩ := Nat.exists_eq_add_of_le (not_lt.mp hn)
    rw [Nat.add_sub_cancel_left]
    constructor
    · intro hinv kv m hkv
      have hmem := mem_of_cutAt hkv
      -- what is left of the record is loaded as some record
      obtain ⟨r', hsmall, hcompletes, hfill⟩ := exists_record_fills (h.small kv hmem) m
      have hreads : ReadsCut r' n db.pairs := by
        intro kv' m' hkv'
        rw [hkv] at hkv'
        cases hkv'
        rw [saveEntry_eq]
        exact ⟨hsmall, hfill⟩
      obtain ⟨rs, hrs⟩ := loadedRecords_of_cutAt r' hkv
      have hstores := (load_take rng h.small r' n hreads).2
      rw [hrs] at hstores
      obtain ⟨rng', hget⟩ := hstores.get_of_mem (List.not_mem_nil)
      obtain ⟨obj, hobj, hagree⟩ := hinv _ _ hget
      -- so that record is one of the key space
      have hentry : (r'.key, obj) ∈ db.pairs := UnorderedMap.mem_pairs.mpr hobj
      have hkey : r'.key = kv.1 → obj = kv.2 := by
        intro he
        rw [he] at hobj
        exact Option.some.inj (hobj.symm.trans (UnorderedMap.mem_pairs.mp hmem))
      refine ⟨(r'.key, obj), hentry, ?_⟩
      rw [saveEntry_eq, saveEntry_eq, record_eq_of_completes rng' (h.small kv hmem)
        (h.listed kv hmem) hcompletes hkey hagree]
      exact hfill
    · intro hcond key obj hget
      have hentry : ∀ kv ∈ db.pairs, ∀ rng', kv.1 = key → obj = (record kv).object rng' →
          ∃ obj', db.get key = some obj' ∧ obj.Agrees (truncated obj') := by
        rintro kv hkv rng' rfl rfl
        exact ⟨kv.2, UnorderedMap.mem_pairs.mp hkv, object_record_agrees rng' (h.listed kv hkv)⟩
      obtain ⟨r', hreads, hr'⟩ : ∃ r', ReadsCut r' n db.pairs ∧
          ((cutAt n db.pairs).isSome = true → ∃ kv ∈ db.pairs, r' = record kv) := by
        cases hc : cutAt n db.pairs with
        | none =>
            refine ⟨⟨[], none, .string []⟩, fun kv m hkv => ?_, nofun⟩
            rw [hc] at hkv
            contradiction
        | some cut =>
            obtain ⟨kv', hkv', hfill⟩ := hcond cut.1 cut.2 hc
            refine ⟨record kv', fun kv m hkv => ?_, fun _ => ⟨kv', hkv', rfl⟩⟩
            rw [hc] at hkv
            cases hkv
            rw [← saveEntry_eq]
            exact ⟨h.small kv' hkv', hfill⟩
      have hstores := (load_take rng h.small r' n hreads).2
      rcases hstores.mem_of_get hget with ⟨r, hr, hkey, rng', hobj⟩ | hnone
      · rcases mem_loadedRecords hr with ⟨kv, hkv, rfl⟩ | ⟨rfl, hsome⟩
        · exact hentry kv hkv rng' hkey hobj
        · obtain ⟨kv, hkv, rfl⟩ := hr' hsome
          exact hentry kv hkv rng' hkey hobj
      · rw [Dict.get_empty] at hnone
        contradiction

theorem load_take_iff_single :
    NeverInvents (fun _ _ _ => 0)
        ((∅ : Dict).set (ascii "k") (RedisObject.createString (ascii "v"))) 25 ↔
      ∀ kv m, cutAt (25 - header.length)
          (UnorderedMap.pairs ((∅ : Dict).set (ascii "k") (RedisObject.createString (ascii "v")))) =
            some (kv, m) →
        ∃ kv' ∈ UnorderedMap.pairs
            ((∅ : Dict).set (ascii "k") (RedisObject.createString (ascii "v"))),
          Fills (saveEntry kv') ((saveEntry kv).take m) := by
  have hfits : FitsRdb ((∅ : Dict).set (ascii "k") (RedisObject.createString (ascii "v"))) :=
    fitsRdb_single (by decide) ⟨(by decide : (ascii "v").length < 2 ^ 32), trivial⟩
  exact load_take_iff (fun _ _ _ => 0) hfits.fitsFile 25

/-- A value that is cut in the middle is loaded with a zero in place of its end. -/
theorem load_take_halfValue :
    FitsRdb ((∅ : Dict).set (ascii "ab") (RedisObject.createString (ascii "xy"))) ∧
      (load (fun _ _ _ => 0)
        (some ((save ((∅ : Dict).set (ascii "ab") (RedisObject.createString (ascii "xy")))).take 27))
        ∅).2.get (ascii "ab") = some (RedisObject.createString [120, 0]) ∧
      ¬ NeverInvents (fun _ _ _ => 0)
        ((∅ : Dict).set (ascii "ab") (RedisObject.createString (ascii "xy"))) 27 := by
  have hfits : FitsRdb ((∅ : Dict).set (ascii "ab") (RedisObject.createString (ascii "xy"))) :=
    fitsRdb_single (by decide) ⟨(by decide : (ascii "xy").length < 2 ^ 32), trivial⟩
  have hpairs : UnorderedMap.pairs ((∅ : Dict).set (ascii "ab")
      (RedisObject.createString (ascii "xy"))) =
        [(ascii "ab", RedisObject.createString (ascii "xy"))] := rfl
  have hcut : cutAt 12 [(ascii "ab", RedisObject.createString (ascii "xy"))] =
      some ((ascii "ab", RedisObject.createString (ascii "xy")), 12) := rfl
  have hreads : ReadsCut ⟨ascii "ab", none, .string [120, 0]⟩ 12
      [(ascii "ab", RedisObject.createString (ascii "xy"))] := by
    intro kv m hkv
    rw [hcut] at hkv
    cases hkv
    exact ⟨⟨by decide, (by decide : ([120, 0] : Bytes).length < 2 ^ 32)⟩, by decide⟩
  have hstores := (load_take (fun _ _ _ => 0) hfits.small_record _ 12 hreads).2
  have hget : (load (fun _ _ _ => 0)
      (some ((save ((∅ : Dict).set (ascii "ab") (RedisObject.createString (ascii "xy")))).take 27))
      ∅).2.get (ascii "ab") = some (RedisObject.createString [120, 0]) := by
    obtain ⟨rng, hget⟩ := @Stores.get_of_mem _ _ _ _ [] hstores List.not_mem_nil
    exact hget
  refine ⟨hfits, hget, fun hinv => ?_⟩
  obtain ⟨obj, hobj, hagree⟩ := hinv _ _ hget
  rw [Dict.get_set, if_pos rfl, Option.some.injEq] at hobj
  subst hobj
  have hvalue : ([120, 0] : Bytes) = ascii "xy" := hagree.value
  exact absurd hvalue (by decide)

end RdbSaver

end RedisLike
