import RedisLike.Storage.RdbRecord

/-!
# RedisLike.Storage.RdbCut

Records that are cut short.

Every reader takes zeros for what is missing, so what is left of a record always
reads as some record (`exists_record_fills`), with the strings, counts and
numbers that the zeros complete.  If that is the entry that was saved, nothing
but zeros was missing (`eq_raw_of_completes`).
-/

namespace RedisLike

namespace RdbSaver

open InputStream

/-! ## Words of the format -/

/-- A string that fits its field. -/
abbrev SmallString (s : Bytes) : Prop := s.length < 2 ^ 32

/-- A field and a value that fit. -/
abbrev SmallField (p : Bytes × Bytes) : Prop := p.1.length < 2 ^ 32 ∧ p.2.length < 2 ^ 32

/-- A member that fits. -/
abbrev SmallScore (p : Bytes × Double) : Prop := p.1.length < 2 ^ 32

theorem leValue_pad_lt (n : Nat) (s : Bytes) : leValue (pad n s) < 256 ^ n := by
  have h := leValue_lt (pad n s)
  rwa [length_pad] at h

theorem fills_leBytes (n : Nat) (rest : Bytes) : Fills (leBytes n (leValue (pad n rest))) rest := by
  have h := leBytes_leValue (pad n rest)
  rw [length_pad] at h
  rw [h]
  exact fills_pad n rest

theorem total_string : Total writeString SmallString := by
  intro rest
  have hlen := leValue_pad_lt 4 rest
  have hsmall : (pad (leValue (pad 4 rest)) (rest.drop 4)).length < 2 ^ 32 := by
    rw [length_pad]
    omega
  refine ⟨pad (leValue (pad 4 rest)) (rest.drop 4), hsmall, ?_⟩
  rw [writeString, length_pad, writeU32]
  refine fills_append.mpr ⟨fills_leBytes 4 rest, ?_⟩
  rw [length_leBytes]
  exact fills_pad _ _

theorem toNat_leValue_pad (rest : Bytes) :
    (leValue (pad 8 rest)).toUInt64.toNat = leValue (pad 8 rest) := by
  have hlt := leValue_pad_lt 8 rest
  simp only [Nat.toUInt64, UInt64.toNat_ofNat']
  omega

theorem total_double : Total writeDouble fun _ => True := by
  intro rest
  refine ⟨⟨(leValue (pad 8 rest)).toUInt64⟩, trivial, ?_⟩
  rw [writeDouble, toNat_leValue_pad]
  exact fills_leBytes 8 rest

theorem prefixFree_string : PrefixFree writeString SmallString :=
  prefixFree_of_pads fun _ h => pads_readString h

theorem prefixFree_field : PrefixFree writeField SmallField :=
  prefixFree_of_pads fun _ h => pads_readField h.1 h.2

theorem prefixFree_score : PrefixFree writeScore SmallScore :=
  prefixFree_of_pads fun _ h => pads_readScore h

theorem total_field : Total writeField SmallField := total_string.append total_string

theorem total_score : Total writeScore SmallScore := fun rest =>
  let ⟨p, hp, hfill⟩ := total_string.append total_double rest
  ⟨p, hp.1, hfill⟩

/-! ## Counts -/

/-- What is left of a number is at most the number. -/
theorem leValue_pad_le {s t cut : Bytes} (h : cut <+: s ++ t) :
    leValue (pad s.length cut) ≤ leValue s := by
  induction s generalizing cut with
  | nil => exact le_rfl
  | cons b s ih =>
      cases cut with
      | nil =>
          have hzero : leValue (pad (b :: s).length []) = 0 := by
            have h := leValue_append_zeros [] (b :: s).length
            rwa [List.nil_append, ← pad_nil] at h
          omega
      | cons c cut =>
          rw [List.cons_append, List.cons_prefix_cons] at h
          have hle := ih h.2
          rw [List.length_cons, pad, leValue, leValue, h.1]
          omega

/-- What is left of a count and its elements. -/
theorem exists_counted_fills {α : Type} {write : α → Bytes} {ok : α → Prop}
    (htotal : Total write ok) {as : List α} (hlen : as.length < 2 ^ 32) {cut : Bytes}
    (hcut : cut <+: counted write as) :
    ∃ bs : List α, bs.length ≤ as.length ∧ (∀ b ∈ bs, ok b) ∧ Fills (counted write bs) cut := by
  have hcount := leValue_pad_le hcut
  rw [writeU32, length_leBytes, leValue_leBytes (by omega)] at hcount
  obtain ⟨bs, hbs, hok, hfill⟩ := htotal.exists_flatten (leValue (pad 4 cut)) (cut.drop 4)
  refine ⟨bs, hbs ▸ hcount, hok, fills_append.mpr ⟨?_, ?_⟩⟩
  · rw [hbs]
    exact fills_leBytes 4 cut
  · rw [writeU32, length_leBytes]
    exact hfill

/-- If nothing is lost of the elements, what was missing was zero. -/
theorem eq_of_fills_counted {α : Type} {write : α → Bytes} {ok : α → Prop} {zero : α}
    (hfree : PrefixFree write ok) (hok : ok zero) (hzero : Fills (write zero) [])
    {as bs : List α} (has : ∀ a ∈ as, ok a) (hnodup : as.Nodup) (hsub : as ⊆ bs)
    (hlen : bs.length ≤ as.length) {cut : Bytes} (hcut : cut <+: counted write as)
    (hfill : Fills (counted write bs) cut) : bs = as := by
  have hperm : bs.Perm as := ((hnodup.subperm hsub).perm_of_length_le hlen).symm
  have hrest := (fills_append.mp hfill).2
  have hdrop := hcut.drop 4
  rw [counted, writeU32, List.drop_left' (length_leBytes 4 _)] at hdrop
  rw [writeU32, length_leBytes] at hrest
  exact eq_of_fills_flatten hfree hok hzero has hdrop hrest hperm

/-! ## Records -/

/-- The number of elements. -/
def RawValue.count : RawValue → Nat
  | .string _ => 0
  | .hash fields => fields.length
  | .list vals => vals.length
  | .set members => members.length
  | .zset scores => scores.length

/-- What is left of a value, with zeros for the rest. -/
structure RawValue.Completes (v v' : RawValue) (cut : Bytes) : Prop where
  objType : v'.objType = v.objType
  count : v'.count ≤ v.count
  left : cut <+: v.payload
  fills : Fills v'.payload cut

theorem exists_value_fills {v : RawValue} (h : v.Small) {cut : Bytes} (hcut : cut <+: v.payload) :
    ∃ v' : RawValue, v'.Small ∧ v.Completes v' cut := by
  cases v with
  | string s =>
      obtain ⟨s', hs, hfill⟩ := total_string cut
      exact ⟨.string s', hs, rfl, le_rfl, hcut, hfill⟩
  | hash fields =>
      obtain ⟨fields', hlen, hok, hfill⟩ := exists_counted_fills total_field h.1 hcut
      exact ⟨.hash fields', ⟨hlen.trans_lt h.1, hok⟩, rfl, hlen, hcut, hfill⟩
  | list vals =>
      obtain ⟨vals', hlen, hok, hfill⟩ := exists_counted_fills total_string h.1 hcut
      exact ⟨.list vals', ⟨hlen.trans_lt h.1, hok⟩, rfl, hlen, hcut, hfill⟩
  | set members =>
      obtain ⟨members', hlen, hok, hfill⟩ := exists_counted_fills total_string h.1 hcut
      exact ⟨.set members', ⟨hlen.trans_lt h.1, hok⟩, rfl, hlen, hcut, hfill⟩
  | zset scores =>
      obtain ⟨scores', hlen, hok, hfill⟩ := exists_counted_fills total_score h.1 hcut
      exact ⟨.zset scores', ⟨hlen.trans_lt h.1, hok⟩, rfl, hlen, hcut, hfill⟩

/-- What is left of a record, with zeros for the rest.  The cut is in the key, in
the deadline, or in the value. -/
inductive Record.Completes (r : Record) : Record → Prop
  | key (key : Bytes) : Completes r { key := key, deadline := none, value := .string [] }
  | deadline {ms ms' : Int64} (h : r.deadline = some ms)
      (h' : ms' = ms ∨ ms'.toUInt64.toNat < 2 ^ 56) :
      Completes r { key := r.key, deadline := some ms', value := .string [] }
  | value {v' : RawValue} {cut : Bytes} (h : r.value.Completes v' cut) :
      Completes r { key := r.key, deadline := r.deadline, value := v' }

/-- A missing value is the empty string. -/
theorem fills_emptyString : Fills (RawValue.string []).bytes [] := rfl

/-- What is left of a value behind its type. -/
theorem exists_bytes_fills {v : RawValue} (h : v.Small) {k : Nat} (hk : 0 < k) :
    ∃ (v' : RawValue) (cut : Bytes), v'.Small ∧ v.Completes v' cut ∧
      Fills v'.bytes (v.bytes.take k) := by
  obtain ⟨v', hsmall, hv⟩ := exists_value_fills h (List.take_prefix (k - 1) v.payload)
  refine ⟨v', _, hsmall, hv, ?_⟩
  obtain ⟨k, rfl⟩ : ∃ j, k = j + 1 := ⟨k - 1, by omega⟩
  have htake : v.bytes.take (k + 1) = v.objType.code :: v.payload.take k := rfl
  rw [htake, RawValue.bytes, hv.objType]
  exact fills_append.mpr ⟨fills_of_isPrefix (List.prefix_append [v.objType.code] _), hv.fills⟩

/-- What is left of a deadline: all of it, or a number without its high byte. -/
theorem exists_deadline_fills (ms : Int64) {k : Nat} (hk : k ≤ 8) :
    ∃ ms' : Int64, (ms' = ms ∨ ms'.toUInt64.toNat < 2 ^ 56) ∧
      Fills (writeI64 ms') ((writeI64 ms).take k) := by
  have hlen : (writeI64 ms).length = 8 := length_leBytes 8 _
  by_cases hall : k = 8
  · refine ⟨ms, .inl rfl, fills_of_isPrefix ?_⟩
    rw [hall, ← hlen, List.take_length]
  · have hshort : ((writeI64 ms).take k).length = k := by
      rw [List.length_take]
      omega
    have hvalue : leValue (pad 8 ((writeI64 ms).take k)) < 2 ^ 56 := by
      have hlt := leValue_lt ((writeI64 ms).take k)
      have hpow : 256 ^ k ≤ 256 ^ 7 := Nat.pow_le_pow_right (by decide) (by omega)
      rw [pad_of_length_le (by omega), leValue_append_zeros]
      rw [hshort] at hlt
      omega
    refine ⟨(leValue (pad 8 ((writeI64 ms).take k))).toUInt64.toInt64, .inr ?_, ?_⟩
    · rw [UInt64.toUInt64_toInt64, toNat_leValue_pad]
      exact hvalue
    · rw [writeI64, UInt64.toUInt64_toInt64, toNat_leValue_pad]
      exact fills_leBytes 8 _

/-- What is left of a deadline and a value. -/
theorem exists_rest_fills (key : Bytes) (d : Option Int64) {v : RawValue} (h : v.Small) {k : Nat}
    (hk : 0 < k) :
    ∃ (d' : Option Int64) (v' : RawValue), v'.Small ∧
      (Record.mk key d v).Completes ⟨key, d', v'⟩ ∧
      Fills (writeDeadline d' ++ v'.bytes) ((writeDeadline d ++ v.bytes).take k) := by
  cases d with
  | none =>
      obtain ⟨v', cut, hsmall, hv, hfill⟩ := exists_bytes_fills h hk
      exact ⟨none, v', hsmall, .value hv, hfill⟩
  | some ms =>
      obtain ⟨k, rfl⟩ : ∃ j, k = j + 1 := ⟨k - 1, by omega⟩
      have hlen : (writeI64 ms).length = 8 := length_leBytes 8 _
      by_cases hk8 : k ≤ 8
      · -- the value is missing, and perhaps some of the deadline
        have htake : (writeDeadline (some ms) ++ v.bytes).take (k + 1) =
            kRdbExpireMs :: (writeI64 ms).take k := by
          rw [writeDeadline, writeU8, List.append_assoc, List.singleton_append, List.take_succ_cons,
            List.take_append_of_le_length (by omega)]
        obtain ⟨ms', hms, hfill⟩ := exists_deadline_fills ms hk8
        refine ⟨some ms', .string [], (by decide : 0 < 2 ^ 32), .deadline rfl hms, ?_⟩
        rw [htake]
        refine fills_append.mpr ⟨fills_append.mpr ⟨rfl, hfill⟩, ?_⟩
        have hnil : (kRdbExpireMs :: (writeI64 ms).take k).drop
            (writeU8 kRdbExpireMs ++ writeI64 ms').length = [] := by
          refine List.drop_eq_nil_of_le ?_
          simp only [writeU8, writeI64, List.length_append, List.length_cons, List.length_nil,
            List.length_take, length_leBytes]
          omega
        rw [writeDeadline, hnil]
        exact fills_emptyString
      · -- the deadline is all there
        obtain ⟨v', cut, hsmall, hv, hfill⟩ := @exists_bytes_fills v h (k - 8) (by omega)
        refine ⟨some ms, v', hsmall, .value hv, ?_⟩
        have hdeadline : (writeDeadline (some ms)).length = 9 := by
          rw [writeDeadline, List.length_append, hlen]
          rfl
        have htake : (writeDeadline (some ms) ++ v.bytes).take (k + 1) =
            writeDeadline (some ms) ++ v.bytes.take (k - 8) := by
          rw [List.take_append, List.take_of_length_le (by omega), hdeadline]
          congr 2
        rw [htake]
        refine fills_append.mpr ⟨fills_of_isPrefix (List.prefix_append _ _), ?_⟩
        rw [List.drop_left]
        exact hfill

/-- **What is left of a record reads as a record.** -/
theorem exists_record_fills {r : Record} (h : r.Small) (m : Nat) :
    ∃ r' : Record, r'.Small ∧ r.Completes r' ∧ Fills r'.bytes (r.bytes.take m) := by
  by_cases hm : m ≤ (writeString r.key).length
  · have htake : r.bytes.take m = (writeString r.key).take m := by
      rw [Record.bytes, List.take_append_of_le_length hm]
    obtain ⟨key, hkey, hfill⟩ := total_string ((writeString r.key).take m)
    have hle := prefixFree_string.length_le h.key hkey (List.take_prefix m _) hfill
    refine ⟨⟨key, none, .string []⟩, ⟨hkey, (by decide : 0 < 2 ^ 32)⟩, .key key, ?_⟩
    rw [htake]
    refine fills_append.mpr ⟨hfill, ?_⟩
    rw [List.drop_eq_nil_of_le hle]
    exact fills_emptyString
  · obtain ⟨d', v', hsmall, hv, hfill⟩ := @exists_rest_fills r.key r.deadline r.value h.value
      (m - (writeString r.key).length) (by omega)
    have htake : r.bytes.take m = writeString r.key ++
        (writeDeadline r.deadline ++ r.value.bytes).take (m - (writeString r.key).length) := by
      rw [Record.bytes, List.take_append, List.take_of_length_le (by omega)]
    refine ⟨⟨r.key, d', v'⟩, ⟨h.key, hsmall⟩, hv, ?_⟩
    rw [htake]
    refine fills_append.mpr ⟨fills_of_isPrefix (List.prefix_append _ _), ?_⟩
    rw [List.drop_left]
    exact hfill

/-! ## Deadlines -/

theorem eq_of_dvd_million {a b : Int} (ha : 0 ≤ a) (ha' : a < 2 ^ 56) (hb : -2 ^ 44 < b)
    (hb' : b < 2 ^ 44) (h : (2 ^ 64 : Int) ∣ a * 1000000 - b * 1000000) : a = b := by
  have hdvd : (2 ^ 58 : Int) ∣ (a - b) * 15625 := by
    have hmul : a * 1000000 - b * 1000000 = 64 * ((a - b) * 15625) := by ring
    rw [hmul, show (2 ^ 64 : Int) = 64 * 2 ^ 58 by norm_num] at h
    exact Int.dvd_of_mul_dvd_mul_left (by decide) h
  obtain ⟨j, hj⟩ : (2 ^ 58 : Int) ∣ a - b := by
    refine IsCoprime.dvd_of_dvd_mul_right ?_ hdvd
    norm_num
  clear h hdvd
  omega

/-- A deadline without its high byte is the one that was saved only if the byte
was zero, also where the nanoseconds wrap. -/
theorem eq_of_ofMilliseconds {ms : Int64} {at_ : TimePoint} (hms : ms.toUInt64.toNat < 2 ^ 56)
    (h : ofMilliseconds ms = ofMilliseconds (toMilliseconds at_)) : ms = toMilliseconds at_ := by
  obtain ⟨hlow, hhigh⟩ := toMilliseconds_bounds at_
  have hnat : ms.toInt = (ms.toUInt64.toNat : Int).bmod (2 ^ 64) := BitVec.toInt_eq_toNat_bmod _
  rw [Int.bmod_eq_of_le (by omega) (by omega)] at hnat
  have hval := congrArg Int64.toInt h
  rw [ofMilliseconds, ofMilliseconds, Int64.toInt_mul, Int64.toInt_mul, toInt_million,
    Int.bmod_eq_bmod_iff_bmod_sub_eq_zero, ← Int.dvd_iff_bmod_eq_zero] at hval
  exact Int64.toInt_inj.mp
    (eq_of_dvd_million (by rw [hnat]; exact Int.natCast_nonneg _) (by rw [hnat]; exact_mod_cast hms)
      hlow hhigh hval)

/-! ## What reads as the saved value -/

theorem nodup_raw_zset {sl : SkipList} (h : sl.Listed) :
    (((sl.rangeByRank 0 ((sl.size : Int) - 1)).map fun m =>
      (m, (sl.getScore m).getD (Double.ofMagnitude false 0))).map Prod.fst).Nodup := by
  rw [List.map_map]
  exact (List.map_id _).symm ▸ h.nodup

/-- Loading a saved value gives its contents. -/
theorem object_raw_agrees (rng : Nat → Nat → Nat) {v : ValueVariant} (h : v.Listed) :
    ((raw v).object rng).value.Agrees v := by
  cases v with
  | string s => exact rfl
  | hash hm => exact hm.lookup_foldl_insert_pairs
  | list l => exact rfl
  | set s =>
      intro m
      rw [UnorderedSet.mem_foldl_insert]
      exact or_iff_left (UnorderedSet.notMem_empty m)
  | zset sl =>
      obtain ⟨hmem, hother⟩ := @getScore_insertAll rng _ 0 .new (nodup_raw_zset h) fun _ _ => rfl
      refine funext fun m => ?_
      have hiff := h.mem_iff m
      cases hs : sl.getScore m with
      | some s =>
          have hlisted := hiff.mpr (by rw [hs]; rfl)
          have hscore := hmem _ (List.mem_map_of_mem hlisted)
          rw [hs] at hscore
          exact hscore
      | none =>
          refine hother m fun hm => ?_
          rw [List.map_map] at hm
          obtain ⟨m', hm', rfl⟩ := List.mem_map.mp hm
          have hsome := (h.mem_iff m').mp hm'
          rw [show sl.getScore m' = none from hs] at hsome
          contradiction

/-- If what is left of a value reads as the value, nothing but zeros was missing. -/
theorem eq_raw_of_completes (rng : Nat → Nat → Nat) {v : ValueVariant} (hsmall : (raw v).Small)
    (hlisted : v.Listed) {v' : RawValue} {cut : Bytes} (h : (raw v).Completes v' cut)
    (hagree : (v'.object rng).value.Agrees v) : v' = raw v := by
  cases v with
  | string s =>
      cases v' with
      | string s' => exact congrArg RawValue.string hagree
      | _ => exact hagree.elim
  | hash hm =>
      cases v' with
      | hash fields =>
          refine congrArg RawValue.hash (eq_of_fills_counted prefixFree_field
            (⟨by decide, by decide⟩ : SmallField ([], [])) rfl hsmall.2
            hm.nodup_map_fst_pairs.of_map ?_ h.count h.left h.fills)
          rintro ⟨field, val⟩ hp
          have hlookup := (hagree field).trans (UnorderedMap.mem_pairs.mp hp)
          exact (UnorderedMap.mem_of_lookup_foldl_insert hlookup).resolve_right nofun
      | _ => exact hagree.elim
  | list l =>
      cases v' with
      | list vals => exact congrArg RawValue.list hagree
      | _ => exact hagree.elim
  | set s =>
      cases v' with
      | set members =>
          refine congrArg RawValue.set (eq_of_fills_counted prefixFree_string
            (by decide : SmallString []) rfl hsmall.2 s.nodup ?_ h.count h.left h.fills)
          intro m hm
          have hmem := (hagree m).mpr hm
          exact ((UnorderedSet.mem_foldl_insert members ∅).mp hmem).resolve_right
            (UnorderedSet.notMem_empty m)
      | _ => exact hagree.elim
  | zset sl =>
      cases v' with
      | zset scores =>
          refine congrArg RawValue.zset (eq_of_fills_counted prefixFree_score
            (by decide : SmallScore ([], Double.ofMagnitude false 0)) rfl hsmall.2
            (nodup_raw_zset hlisted).of_map ?_ h.count h.left h.fills)
          intro p hp
          obtain ⟨m, hm, rfl⟩ := List.mem_map.mp hp
          obtain ⟨s, hs⟩ := Option.isSome_iff_exists.mp ((hlisted.mem_iff m).mp hm)
          have hscore : (insertAll rng 0 scores .new).getScore m = some s :=
            (congrFun hagree m).trans hs
          rw [hs, Option.getD_some]
          exact (mem_of_getScore_insertAll rng hscore).resolve_right nofun
      | _ => exact hagree.elim

end RdbSaver

end RedisLike
