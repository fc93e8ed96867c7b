import RedisLike.Storage.RdbRecord

/-!
# RedisLike.Storage.RdbLoop

The loop of `Load` on the first bytes of a file that `Save` wrote.

The loop stores the records that are all there, in front of the first key that
reads as the end of the file, and then whatever is left of the next one reads as
(`loadLoop_take`).  `Stores` is this loop without the file: one `db.Set` for each
record.
-/

namespace RedisLike

namespace RdbSaver

open InputStream

/-! ## One round -/

/-- The record does not start with the byte that ends the file. -/
def Plain (kv : Bytes × RedisObject) : Bool := kv.1.length % 256 ≠ 255

theorem saveEntry_eq_cons (kv : Bytes × RedisObject) :
    ∃ b bytes, saveEntry kv = b :: bytes ∧ (b = kRdbEof ↔ Plain kv = false) := by
  refine ⟨(kv.1.length % 256).toUInt8, _, rfl, ?_⟩
  have hlt : kv.1.length % 256 < 256 := Nat.mod_lt _ (by decide)
  rw [← UInt8.toNat_inj]
  simp [Plain, kRdbEof, Nat.mod_eq_of_lt hlt]

theorem loadLoop_eof (rng : Nat → Nat → Nat → Nat) (fuel : Nat) (db : Dict) {is : InputStream}
    {rest : Bytes} (h : is.Before (kRdbEof :: rest)) : (loadLoop rng fuel db is).1 = db := by
  cases fuel with
  | zero => rfl
  | succ fuel =>
      rw [loadLoop]
      simp only [bind, StateT.bind, ok, h.failbit, Bool.not_false, if_true, peek_eq h]
      rfl

theorem loadLoop_entry (rng : Nat → Nat → Nat → Nat) (fuel : Nat) (db : Dict) {is : InputStream}
    {b : UInt8} {rest : Bytes} (h : is.Before (b :: rest)) (hb : b ≠ kRdbEof) :
    loadLoop rng (fuel + 1) db is =
      loadLoop rng fuel (storeEntry db (loadEntry (rng fuel) is).1) (loadEntry (rng fuel) is).2 := by
  rw [loadLoop]
  simp only [bind, StateT.bind, ok, h.failbit, Bool.not_false, if_true, peek_eq h, if_neg hb]
  rfl

theorem loadLoop_short (rng : Nat → Nat → Nat → Nat) (fuel : Nat) (db : Dict) {is : InputStream}
    (h : Short is []) : (loadLoop rng fuel db is).1 = db := by
  cases fuel with
  | zero => rfl
  | succ fuel =>
      rw [loadLoop]
      rcases h with his | ⟨hfail, -⟩
      · simp only [bind, StateT.bind, ok, his.failbit, Bool.not_false, if_true, peek_eq_none his]
        rfl
      · simp only [bind, StateT.bind, ok, hfail, Bool.not_true, Bool.false_eq_true, if_false]
        rfl

/-! ## Storing records -/

/-- The records stored one by one, with some outcome of the random heights. -/
inductive Stores : Dict → List Record → Dict → Prop
  | nil (db : Dict) : Stores db [] db
  | cons {db db' : Dict} {r : Record} {rs : List Record} (rng : Nat → Nat → Nat)
      (h : Stores (db.set r.key (r.object rng)) rs db') : Stores db (r :: rs) db'

namespace Stores

variable {db db' : Dict} {r : Record} {rs : List Record} {key : Bytes}

/-- What is found was stored. -/
theorem mem_of_get (h : Stores db rs db') {obj : RedisObject} (hget : db'.get key = some obj) :
    (∃ r ∈ rs, r.key = key ∧ ∃ rng, obj = r.object rng) ∨ db.get key = some obj := by
  induction h with
  | nil db => exact .inr hget
  | @cons db db' r rs rng h ih =>
      rcases ih hget with ⟨r', hr, hkey⟩ | hset
      · exact .inl ⟨r', List.mem_cons_of_mem r hr, hkey⟩
      · rw [Dict.get_set] at hset
        split at hset
        · next he => exact .inl ⟨r, List.mem_cons_self, he.symm, rng, (Option.some.inj hset).symm⟩
        · exact .inr hset

theorem get_of_notMem (h : Stores db rs db') (hkey : key ∉ rs.map Record.key) :
    db'.get key = db.get key := by
  induction h with
  | nil db => rfl
  | cons rng h ih =>
      rw [List.map_cons, List.mem_cons, not_or] at hkey
      rw [ih hkey.2, Dict.get_set, if_neg hkey.1]

/-- The last record of a key is found. -/
theorem get_of_mem {rs' : List Record} (h : Stores db (rs' ++ r :: rs) db')
    (hkey : r.key ∉ rs.map Record.key) : ∃ rng, db'.get r.key = some (r.object rng) := by
  induction rs' generalizing db with
  | nil =>
      cases h with
      | cons rng h =>
          refine ⟨rng, ?_⟩
          rw [h.get_of_notMem hkey, Dict.get_set, if_pos rfl]
  | cons r' rs' ih =>
      cases h with
      | cons rng h => exact ih h

theorem get_of_nodup (h : Stores db rs db') (hnodup : (rs.map Record.key).Nodup) (hr : r ∈ rs) :
    ∃ rng, db'.get r.key = some (r.object rng) := by
  obtain ⟨before, after, rfl⟩ := List.append_of_mem hr
  rw [List.map_append, List.map_cons] at hnodup
  exact h.get_of_mem (List.nodup_cons.mp (List.nodup_append.mp hnodup).2.1).1

end Stores

/-! ## Cuts -/

/-- The record that the first `n` bytes of the records cut, with the number of
bytes that are left of it, if the loop comes to it. -/
def cutAt : Nat → List (Bytes × RedisObject) → Option ((Bytes × RedisObject) × Nat)
  | _, [] => none
  | n, kv :: kvs =>
    if n = 0 ∨ Plain kv = false then none
    else if (saveEntry kv).length ≤ n then cutAt (n - (saveEntry kv).length) kvs
    else some (kv, n)

/-- The records that the loop loads from the first `n` bytes, where the one that
is cut reads as `r'`. -/
def loadedRecords (r' : Record) : Nat → List (Bytes × RedisObject) → List Record
  | _, [] => []
  | n, kv :: kvs =>
    if n = 0 ∨ Plain kv = false then []
    else if (saveEntry kv).length ≤ n then
      record kv :: loadedRecords r' (n - (saveEntry kv).length) kvs
    else [r']

/-- `r'` is what the cut record reads as. -/
def ReadsCut (r' : Record) (n : Nat) (kvs : List (Bytes × RedisObject)) : Prop :=
  ∀ kv m, cutAt n kvs = some (kv, m) → r'.Small ∧ Fills r'.bytes ((saveEntry kv).take m)

theorem mem_loadedRecords {r r' : Record} {n : Nat} {kvs : List (Bytes × RedisObject)}
    (h : r ∈ loadedRecords r' n kvs) :
    (∃ kv ∈ kvs, r = record kv) ∨ r = r' ∧ (cutAt n kvs).isSome = true := by
  induction kvs generalizing n with
  | nil => exact absurd h List.not_mem_nil
  | cons kv kvs ih =>
      rw [loadedRecords] at h
      rw [cutAt]
      split at h
      · exact absurd h List.not_mem_nil
      · next hstop =>
        rw [if_neg hstop]
        split at h
        · next hlen =>
          rw [if_pos hlen]
          rcases List.mem_cons.mp h with rfl | hmem
          · exact .inl ⟨kv, List.mem_cons_self, rfl⟩
          · exact (ih hmem).imp_left fun ⟨kv', hkv', he⟩ => ⟨kv', List.mem_cons_of_mem kv hkv', he⟩
        · next hlen =>
          rw [if_neg hlen]
          exact .inr ⟨List.mem_singleton.mp h, rfl⟩

theorem loadedRecords_of_cutAt (r' : Record) {n m : Nat} {kvs : List (Bytes × RedisObject)}
    {kv : Bytes × RedisObject} (h : cutAt n kvs = some (kv, m)) :
    ∃ rs, loadedRecords r' n kvs = rs ++ [r'] := by
  induction kvs generalizing n with
  | nil => contradiction
  | cons kv' kvs ih =>
      rw [cutAt] at h
      rw [loadedRecords]
      split at h
      · contradiction
      · next hstop =>
        rw [if_neg hstop]
        split at h
        · next hlen =>
          obtain ⟨rs, hrs⟩ := ih h
          rw [if_pos hlen, hrs]
          exact ⟨record kv' :: rs, rfl⟩
        · next hlen =>
          rw [if_neg hlen]
          exact ⟨[], rfl⟩

theorem mem_of_cutAt {n m : Nat} {kvs : List (Bytes × RedisObject)} {kv : Bytes × RedisObject}
    (h : cutAt n kvs = some (kv, m)) : kv ∈ kvs := by
  induction kvs generalizing n with
  | nil => contradiction
  | cons kv' kvs ih =>
      rw [cutAt] at h
      split at h
      · contradiction
      · split at h
        · exact List.mem_cons_of_mem kv' (ih h)
        · obtain ⟨rfl, -⟩ := Prod.mk.inj (Option.some.inj h)
          exact List.mem_cons_self

/-- Of all the bytes, nothing is cut. -/
theorem loadedRecords_of_le (r' : Record) {n : Nat} {kvs : List (Bytes × RedisObject)}
    (h : (kvs.map saveEntry).flatten.length ≤ n) :
    loadedRecords r' n kvs = (kvs.takeWhile Plain).map record ∧ cutAt n kvs = none := by
  induction kvs generalizing n with
  | nil => exact ⟨rfl, rfl⟩
  | cons kv kvs ih =>
      rw [List.map_cons, List.flatten_cons, List.length_append] at h
      obtain ⟨b, bytes, hcons, -⟩ := saveEntry_eq_cons kv
      have hpos : 0 < (saveEntry kv).length := by
        rw [hcons]
        exact Nat.succ_pos _
      obtain ⟨hrecords, hcut⟩ := ih (show _ ≤ n - (saveEntry kv).length by omega)
      rw [loadedRecords, cutAt]
      cases hplain : Plain kv with
      | false =>
          rw [if_pos (.inr rfl), if_pos (.inr rfl), List.takeWhile_cons_of_neg (by simp [hplain])]
          exact ⟨rfl, rfl⟩
      | true =>
          have hgo : ¬ (n = 0 ∨ true = false) := by
            rintro (hn | hf)
            · omega
            · contradiction
          rw [if_neg hgo, if_neg hgo, if_pos (by omega), if_pos (by omega),
            List.takeWhile_cons_of_pos hplain, hrecords, List.map_cons]
          exact ⟨rfl, hcut⟩

/-! ## The loop -/

/-- What is left of a record is all read. -/
theorem length_le_of_fills {r r' : Record} (h : r.Small) (h' : r'.Small) {cut : Bytes}
    (hcut : cut <+: r.bytes) (hfill : Fills r'.bytes cut) : cut.length ≤ r'.bytes.length := by
  by_contra hshort
  have hpre : r'.bytes <+: r.bytes := (hfill.prefix_of_le (by omega)).trans hcut
  have hrng : Nat → Nat → Nat := fun _ _ => 0
  have hlen := (pads_loadEntry hrng h').length_eq (pads_loadEntry hrng h) hpre (List.prefix_refl _)
  have hle := hcut.length_le
  omega

/-- The loop stops where no record of `kvs` begins that it takes for one. -/
theorem loadLoop_stop (rng : Nat → Nat → Nat → Nat) (fuel : Nat) (db : Dict) {n : Nat}
    {kvs : List (Bytes × RedisObject)} {is : InputStream}
    (hstop : ∀ kv ∈ kvs.head?, n = 0 ∨ Plain kv = false)
    (h : is.Before (((kvs.map saveEntry).flatten ++ trailer).take n)) :
    (loadLoop rng fuel db is).1 = db := by
  cases n with
  | zero => exact loadLoop_short rng fuel db (.inl h)
  | succ n =>
      cases kvs with
      | nil => exact loadLoop_eof rng fuel db h
      | cons kv kvs =>
          obtain ⟨b, bytes, hcons, hb⟩ := saveEntry_eq_cons kv
          have hplain := (hstop kv rfl).resolve_left (Nat.succ_ne_zero n)
          rw [List.map_cons, List.flatten_cons, hcons, hb.mpr hplain] at h
          exact loadLoop_eof rng fuel db h

/-- A record that is all there is stored, and the loop goes on behind it. -/
theorem loadLoop_whole (rng : Nat → Nat → Nat → Nat) (fuel : Nat) (db : Dict)
    {kv : Bytes × RedisObject} (hsmall : (record kv).Small) (hplain : Plain kv ≠ false)
    {is : InputStream} {rest : Bytes} (h : is.Before (saveEntry kv ++ rest)) :
    ∃ is', is'.Before rest ∧ loadLoop rng (fuel + 1) db is =
      loadLoop rng fuel (db.set kv.1 ((record kv).object (rng fuel))) is' := by
  obtain ⟨b, bytes, hcons, hb⟩ := saveEntry_eq_cons kv
  have hread := (pads_loadEntry (rng fuel) hsmall).yields
  rw [← saveEntry_eq] at hread
  obtain ⟨hval, hrest⟩ := hread is _ h
  rw [hcons, List.cons_append] at h
  refine ⟨_, hrest, ?_⟩
  rw [loadLoop_entry rng fuel db h fun he => hplain (hb.mp he), hval]
  rfl

/-- Of a record that is cut the loop stores what is left of it, and stops. -/
theorem loadLoop_cut (rng : Nat → Nat → Nat → Nat) (fuel : Nat) (db : Dict) {r' : Record}
    {kv : Bytes × RedisObject} (hsmall : (record kv).Small) (hplain : Plain kv ≠ false) {n : Nat}
    (hn : n ≠ 0) (hr' : r'.Small) (hfill : Fills r'.bytes ((saveEntry kv).take n))
    {is : InputStream} (h : is.Before ((saveEntry kv).take n)) :
    (loadLoop rng (fuel + 1) db is).1 = db.set r'.key (r'.object (rng fuel)) := by
  obtain ⟨b, bytes, hcons, hb⟩ := saveEntry_eq_cons kv
  obtain ⟨hval, hshort, -⟩ := pads_loadEntry (rng fuel) hr' is _ (.inl h) hfill
  have hall : ((saveEntry kv).take n).length ≤ r'.bytes.length := by
    rw [saveEntry_eq] at hfill ⊢
    exact length_le_of_fills hsmall hr' (List.take_prefix n _) hfill
  rw [List.drop_eq_nil_of_le hall] at hshort
  obtain ⟨n, rfl⟩ := Nat.exists_eq_succ_of_ne_zero hn
  rw [hcons, List.take_succ_cons] at h
  rw [loadLoop_entry rng fuel db h fun he => hplain (hb.mp he), hval,
    loadLoop_short rng fuel _ hshort]
  rfl

/-- **What the loop loads** from the first `n` bytes of the records. -/
theorem loadLoop_take (rng : Nat → Nat → Nat → Nat) (r' : Record)
    {kvs : List (Bytes × RedisObject)} {fuel n : Nat} {db : Dict} {is : InputStream}
    (hsmall : ∀ kv ∈ kvs, (record kv).Small) (hcut : ReadsCut r' n kvs)
    (h : is.Before (((kvs.map saveEntry).flatten ++ trailer).take n))
    (hfuel : (((kvs.map saveEntry).flatten ++ trailer).take n).length < fuel) :
    Stores db (loadedRecords r' n kvs) (loadLoop rng fuel db is).1 := by
  induction kvs generalizing fuel n db is with
  | nil =>
      rw [loadLoop_stop rng fuel db (fun kv hkv => by cases hkv) h]
      exact .nil db
  | cons kv kvs ih =>
      rw [List.forall_mem_cons] at hsmall
      rw [loadedRecords]
      split
      · next hstop =>
        rw [loadLoop_stop rng fuel db (fun kv' hkv' => Option.some.inj hkv' ▸ hstop) h]
        exact .nil db
      · next hgo =>
        have hplain := (not_or.mp hgo).2
        obtain ⟨fuel, rfl⟩ : ∃ f, fuel = f + 1 := ⟨fuel - 1, by omega⟩
        rw [List.map_cons, List.flatten_cons, List.append_assoc, List.take_append] at h hfuel
        split
        · next hlen =>
          rw [List.take_of_length_le hlen] at h hfuel
          obtain ⟨is', his', hloop⟩ := loadLoop_whole rng fuel db hsmall.1 hplain h
          have hpos : 0 < (saveEntry kv).length := by
            obtain ⟨b, bytes, hcons, -⟩ := saveEntry_eq_cons kv
            rw [hcons]
            exact Nat.succ_pos _
          rw [List.length_append] at hfuel
          rw [hloop]
          refine .cons (rng fuel) (ih hsmall.2 (fun kv' m hkv' => hcut kv' m ?_) his' (by omega))
          rw [cutAt, if_neg hgo, if_pos hlen]
          exact hkv'
        · next hlen =>
          have hzero : n - (saveEntry kv).length = 0 := by omega
          rw [hzero, List.take_zero, List.append_nil] at h
          obtain ⟨hr', hfill⟩ := hcut kv n (by rw [cutAt, if_neg hgo, if_neg hlen])
          rw [loadLoop_cut rng fuel db hsmall.1 hplain (not_or.mp hgo).1 hr' hfill h]
          exact .cons (rng fuel) (.nil _)

/-! ## The file -/

theorem loadFile_eq (rng : Nat → Nat → Nat → Nat) (fuel : Nat) (db : Dict) {is : InputStream}
    {rest : Bytes} (h : is.Before (header ++ rest)) :
    ∃ is' : InputStream, is'.Before rest ∧
      (loadFile rng fuel db is).1 = (true, (loadLoop rng fuel db is').1) := by
  have hselect : Yields skipSelectDb (writeU8 kRdbSelectDb ++ writeU32 0) () := by
    refine (pads_readU8 kRdbSelectDb).yields.bind ?_
    rw [if_pos rfl]
    exact (pads_readU32 (by decide)).yields.bind_pure fun _ => ()
  rw [header, List.append_assoc, List.append_assoc] at h
  have hmagic : Yields (read 9) kRdbMagic kRdbMagic := yields_read kRdbMagic
  have h₁ := (hmagic is _ h).2
  have hversion := (pads_readU8 kRdbVersion).yields
  have h₂ := (hversion _ _ h₁).2
  refine ⟨_, (hselect _ _ h₂).2, ?_⟩
  rw [loadFile, (hmagic.run_bind _ h).2, if_neg (not_not_intro rfl),
    (hversion.run_bind _ h₁).2, (hselect.run_bind _ h₂).2]
  rfl

/-- **What `Load` makes of a file that ends early**: behind the header, it
succeeds. -/
theorem load_take (rng : Nat → Nat → Nat → Nat) {db : Dict}
    (hsmall : ∀ kv ∈ db.pairs, (record kv).Small) (r' : Record) (n : Nat)
    (hcut : ReadsCut r' n db.pairs) :
    (load rng (some ((save db).take (header.length + n))) ∅).1 = true ∧
      Stores ∅ (loadedRecords r' n db.pairs)
        (load rng (some ((save db).take (header.length + n))) ∅).2 := by
  have htake : (save db).take (header.length + n) =
      header ++ ((db.pairs.map saveEntry).flatten ++ trailer).take n := by
    rw [save, List.append_assoc, List.take_length_add_append]
  rw [htake]
  obtain ⟨is, his, hrun⟩ := loadFile_eq rng
    ((header ++ ((db.pairs.map saveEntry).flatten ++ trailer).take n).length + 1) ∅ (before_open _)
  have hload : load rng
      (some (header ++ ((db.pairs.map saveEntry).flatten ++ trailer).take n)) ∅ =
        (true, (loadLoop rng _ ∅ is).1) := hrun
  rw [hload]
  refine ⟨rfl, loadLoop_take rng r' hsmall hcut his ?_⟩
  rw [List.length_append]
  omega

end RdbSaver

end RedisLike
