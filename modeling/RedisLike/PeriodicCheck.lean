import RedisLike.Lib.Pool
import RedisLike.Command.Expiry

/-!
# RedisLike.PeriodicCheck

The periodic deletion of `expire.cpp`: rounds of drawing keys at random, as long
as more than a quarter of a round's keys were expired.

The counters are `int`s, so an overflow leaves no value, and neither does a draw
from an empty range or a place outside the vector of keys.  For a sample size
below `2^27` there is always a value, whatever is drawn, and it is the number of
entries that went: `periodicCheck_spec`.
-/

namespace RedisLike

/-! ## The routine -/

/-- The value of an `int` expression; an overflow is undefined. -/
def int32 (x : Int) : Option Int := if -2 ^ 31 ≤ x ∧ x < 2 ^ 31 then some x else none

/-- `std::uniform_int_distribution<size_t>(a, b)` on the random word `w`; it asks
for `a ≤ b`. -/
def uniformInt (w a b : Nat) : Option Nat := if a ≤ b then some (a + w % (b - a + 1)) else none

/-- `obj && obj->IsExpired(now)`, for `obj = db.Get(key)`. -/
def Dict.expired (db : Dict) (now : TimePoint) (key : Bytes) : Bool :=
  (db.get key).any (·.isExpired now)

/-- The variables of `PeriodicCheck`.  The source keeps no list of the keys drawn;
here `sampled` has them, the latest first, and its length numbers the next draw. -/
structure Sampling where
  db : Dict
  keys : List Bytes
  totalDeleted : Int
  checked : Int
  deleted : Int
  sampled : List Bytes

/-- The body of the inner loop.  `last` is `remaining - 1`, the end of the pool. -/
def sampleKey (rng : Nat → Nat) (now : TimePoint) (last : Nat) (s : Sampling) :
    Option Sampling := do
  let idx ← uniformInt (rng s.sampled.length) 0 last
  let key ← s.keys[idx]?
  let checked ← int32 (s.checked + 1)
  let expired := s.db.expired now key
  let db := if expired then (s.db.del key).2 else s.db
  let deleted ← (if expired then int32 (s.deleted + 1) else some s.deleted)
  let keys ← Pool.swap s.keys idx last
  some { s with db, keys, checked, deleted, sampled := key :: s.sampled }

/-- `while (checked < sampleSize && remaining > 0)`: what `remaining` is at the
end, and the other variables. -/
def sampleLoop (rng : Nat → Nat) (now : TimePoint) (sampleSize : Int) :
    Nat → Sampling → Option (Nat × Sampling)
  | 0, s => some (0, s)
  | last + 1, s =>
    if s.checked < sampleSize then do
      let s ← sampleKey rng now last s
      sampleLoop rng now sampleSize last s
    else some (last + 1, s)

/-- Whether a round is the last: `deleted == 0 || (sampleSize > 0 && deleted * 4 <= checked)`. -/
def enough (sampleSize deleted checked : Int) : Option Bool :=
  if deleted = 0 then some true
  else if sampleSize > 0 then do
    let quadruple ← int32 (deleted * 4)
    some (quadruple ≤ checked)
  else some false

/-- The `do` loop, with so many rounds left of `kMaxLoops`. -/
def roundLoop (rng : Nat → Nat) (now : TimePoint) (sampleSize : Int) :
    Nat → Sampling → Option Sampling
  | 0, s => some s
  | rounds + 1, s => do
    let (remaining, s) ←
      sampleLoop rng now sampleSize s.keys.length { s with checked := 0, deleted := 0 }
    let totalDeleted ← int32 (s.totalDeleted + s.deleted)
    let s := { s with totalDeleted }
    let stop ← enough sampleSize s.deleted s.checked
    if stop then some s
    else
      let s := { s with keys := s.keys.take remaining }
      if s.keys.isEmpty then some s else roundLoop rng now sampleSize rounds s

/-- `kMaxLoops`. -/
def kMaxLoops : Nat := 16

/-- `ExpireManager::PeriodicCheck`, where `rng` has the random words: the result,
the key space it leaves and the keys that were drawn. -/
def periodicCheck (rng : Nat → Nat) (db : Dict) (now : TimePoint) (sampleSize : Int) :
    Option (Int × Dict × List Bytes) :=
  let keys := db.keys
  if keys.isEmpty then some (0, db, [])
  else do
    let s ← roundLoop rng now sampleSize kMaxLoops ⟨db, keys, 0, 0, 0, []⟩
    some (s.totalDeleted, s.db, s.sampled)

/-! ## Expired keys -/

namespace Dict

variable {db : Dict} {now : TimePoint}

theorem expired_iff {key : Bytes} : db.expired now key = true ↔ db.HasExpired now key := by
  simp [expired, HasExpired, Option.any_eq_true]

theorem mem_keys_of_expired {key : Bytes} (h : db.expired now key = true) : key ∈ db.keys := by
  obtain ⟨obj, hget, -⟩ := expired_iff.mp h
  simp [mem_keys, hget]

theorem nodup_keys (db : Dict) : db.keys.Nodup := db.nodupKeys

theorem size_eq (db : Dict) : db.size = db.keys.length := by
  simp [UnorderedMap.size, AList.keys, List.keys]

/-- The keys that `db'` no longer has. -/
def removed (db db' : Dict) : List Bytes := db.keys.filter fun key => !db'.existsKey key

theorem nodup_removed (db db' : Dict) : (db.removed db').Nodup := db.nodup_keys.filter _

theorem mem_removed {db' : Dict} {key : Bytes} :
    key ∈ db.removed db' ↔ db.existsKey key = true ∧ db'.existsKey key = false := by
  simp [removed, mem_keys, existsKey_eq]

end Dict

/-! ## Sums -/

theorem uniformInt_zero (w b : Nat) : uniformInt w 0 b = some (w % (b + 1)) := by
  simp [uniformInt]

theorem int32_of_le {x : Int} (h0 : 0 ≤ x) (h : x < 2 ^ 31) : int32 x = some x :=
  if_pos ⟨by omega, h⟩

/-! ## One draw -/

namespace Sampling

variable {db : Dict} {now : TimePoint} {r : Nat} {s s' s'' : Sampling} {ks ks' : List Bytes}

/-- How the key space `db` came to the state of `s`: the keys drawn and the pool
of `r` keys are those of `db`, and exactly the expired ones among those drawn are
gone. -/
structure From (db : Dict) (now : TimePoint) (r : Nat) (s : Sampling) : Prop where
  drawn : Pool.Drawn db.keys s.sampled s.keys r
  get : ∀ k, s.db.get k = if k ∈ s.sampled then db.live now k else db.get k

/-- Between `s` and `s'` the keys `ks` were drawn and counted, in one round. -/
structure Draws (db : Dict) (now : TimePoint) (s : Sampling) (ks : List Bytes) (s' : Sampling) :
    Prop where
  sampled : s'.sampled = ks ++ s.sampled
  checked : s'.checked = s.checked + ks.length
  deleted : s'.deleted = s.deleted + ks.countP (db.expired now)
  totalDeleted : s'.totalDeleted = s.totalDeleted

theorem Draws.refl (s : Sampling) : Draws db now s [] s := ⟨rfl, by simp, by simp, rfl⟩

theorem Draws.trans (h : Draws db now s ks s') (h' : Draws db now s' ks' s'') :
    Draws db now s (ks' ++ ks) s'' where
  sampled := by rw [h'.sampled, h.sampled, List.append_assoc]
  checked := by rw [h'.checked, h.checked, List.length_append]; omega
  deleted := by rw [h'.deleted, h.deleted, List.countP_append]; omega
  totalDeleted := h'.totalDeleted.trans h.totalDeleted

/-- The counters of a round. -/
structure Counting (s : Sampling) : Prop where
  deleted_nonneg : 0 ≤ s.deleted
  deleted_le : s.deleted ≤ s.checked

theorem Draws.counting (h : Draws db now s ks s') (hs : s.Counting) : s'.Counting := by
  obtain ⟨hnonneg, hle⟩ := hs
  have hcount := ks.countP_le_length (p := db.expired now)
  constructor
  · rw [h.deleted]; omega
  · rw [h.deleted, h.checked]; omega

/-- Deleting a key that is drawn for the first time, if it is expired. -/
theorem get_del_expired {d : Dict} (h : ∀ k, d.get k = if k ∈ ks then db.live now k else db.get k)
    {key : Bytes} (hkey : key ∉ ks) (k : Bytes) :
    (if d.expired now key then (d.del key).2 else d).get k =
      if k ∈ key :: ks then db.live now k else db.get k := by
  have hget : d.get key = db.get key := by rw [h, if_neg hkey]
  have hexp : d.expired now key = db.expired now key := by simp [Dict.expired, hget]
  rw [hexp]
  by_cases he : db.expired now key = true
  · rw [if_pos he, Dict.get_del]
    by_cases hk : k = key
    · simp [hk, Dict.live_of_hasExpired (Dict.expired_iff.mp he)]
    · simp [hk, h]
  · rw [if_neg he]
    by_cases hk : k = key
    · simp [hk, hget, Dict.live_eq_get fun hexp => he (Dict.expired_iff.mpr hexp)]
    · simp [hk, h]

/-- **A pass of the inner loop**, with at least one key left to draw. -/
theorem exists_sampleKey (rng : Nat → Nat) (h : s.From db now (r + 1)) (hs : s.Counting)
    (hsmall : s.checked < 2 ^ 27) :
    ∃ key s', sampleKey rng now r s = some s' ∧ s'.From db now r ∧ Draws db now s [key] s' := by
  have hidx : rng s.sampled.length % (r + 1) ≤ r :=
    Nat.lt_succ_iff.mp (Nat.mod_lt _ (Nat.succ_pos r))
  obtain ⟨key, keys, hkey, hswap, hdrawn⟩ := h.drawn.draw hidx
  have hfresh : key ∉ s.sampled := (List.nodup_cons.mp (hdrawn.nodup db.nodup_keys)).1
  have hexp : s.db.expired now key = db.expired now key := by
    simp [Dict.expired, h.get, hfresh]
  have hget := get_del_expired h.get hfresh
  obtain ⟨hnonneg, hle⟩ := hs
  have hchecked := int32_of_le (x := s.checked + 1) (by omega) (by omega)
  have hdeleted : (if db.expired now key then int32 (s.deleted + 1) else some s.deleted) =
      some (s.deleted + [key].countP (db.expired now)) := by
    rw [int32_of_le (by omega) (by omega)]
    by_cases he : db.expired now key = true <;> simp [he]
  rw [hexp] at hget
  refine ⟨key, { s with
    db := if db.expired now key then (s.db.del key).2 else s.db
    keys := keys
    checked := s.checked + 1
    deleted := s.deleted + [key].countP (db.expired now)
    sampled := key :: s.sampled }, ?_, ⟨hdrawn, hget⟩, ⟨rfl, rfl, rfl, rfl⟩⟩
  simp [sampleKey, uniformInt_zero, hkey, hchecked, hexp, hdeleted, hswap]

/-! ## A round -/

/-- **The inner loop**: it draws as many keys as there are, but no more than the
sample size. -/
theorem exists_sampleLoop (rng : Nat → Nat) {sampleSize : Int} (hsmall : sampleSize < 2 ^ 27)
    (h : s.From db now r) (hs : s.Counting) :
    ∃ r' s' ks, sampleLoop rng now sampleSize r s = some (r', s') ∧ s'.From db now r' ∧
      Draws db now s ks s' ∧ (ks.length : Int) = min (r : Int) (max 0 (sampleSize - s.checked)) := by
  induction r generalizing s with
  | zero => exact ⟨0, s, [], rfl, h, Draws.refl s, by simp⟩
  | succ r ih =>
      by_cases hc : s.checked < sampleSize
      · obtain ⟨key, s₁, hkey, h₁, hdraws⟩ := exists_sampleKey rng h hs (by omega)
        obtain ⟨r', s', ks, hloop, h', hdraws', hlen⟩ := ih h₁ (hdraws.counting hs)
        refine ⟨r', s', ks ++ [key], ?_, h', hdraws.trans hdraws', ?_⟩
        · simp [sampleLoop, hc, hkey, hloop]
        · have hchecked := hdraws.checked
          rw [List.length_append, List.length_singleton] at *
          omega
      · refine ⟨r + 1, s, [], ?_, h, Draws.refl s, ?_⟩
        · simp [sampleLoop, hc]
        · simp only [List.length_nil]
          omega

/-- The total counts the expired keys among those drawn. -/
def Counted (db : Dict) (now : TimePoint) (s : Sampling) : Prop :=
  s.totalDeleted = s.sampled.countP (db.expired now)

/-- What is left after a round: the pool. -/
def rest (r : Nat) (s : Sampling) : Sampling := { s with keys := s.keys.take r }

theorem From.rest (h : s.From db now r) : (rest r s).From db now (rest r s).keys.length :=
  ⟨h.drawn.take, h.get⟩

/-- A round is the last when it found too few expired keys. -/
def Enough (db : Dict) (now : TimePoint) (sampleSize : Int) (ks : List Bytes) : Prop :=
  ks.countP (db.expired now) = 0 ∨ 0 < sampleSize ∧ ks.countP (db.expired now) * 4 ≤ ks.length

instance (db : Dict) (now : TimePoint) (sampleSize : Int) (ks : List Bytes) :
    Decidable (Enough db now sampleSize ks) := inferInstanceAs (Decidable (_ ∨ _))

theorem enough_eq {sampleSize : Int} (hks : ks.length < 2 ^ 27) :
    enough sampleSize (ks.countP (db.expired now)) ks.length =
      some (decide (Enough db now sampleSize ks)) := by
  have hcount := ks.countP_le_length (p := db.expired now)
  unfold enough Enough
  rw [int32_of_le (by omega) (by omega)]
  by_cases h0 : ks.countP (db.expired now) = 0
  · simp [h0]
  · by_cases hpos : sampleSize > 0
    · simp [h0, hpos]
      omega
    · simp [h0, hpos]

/-- **A round** of the `do` loop, with the keys it draws. -/
theorem exists_round (rng : Nat → Nat) {sampleSize : Int} (hsmall : sampleSize < 2 ^ 27)
    (rounds : Nat) (h : s.From db now s.keys.length) (hcounted : s.Counted db now)
    (hbound : s.sampled.length ≤ 15 * 2 ^ 27) :
    ∃ r s' ks, s'.From db now r ∧ s'.Counted db now ∧ s'.sampled = ks ++ s.sampled ∧
      (ks.length : Int) = min (s.keys.length : Int) (max 0 sampleSize) ∧
      roundLoop rng now sampleSize (rounds + 1) s =
        if Enough db now sampleSize ks then some s'
        else if (rest r s').keys = [] then some (rest r s')
        else roundLoop rng now sampleSize rounds (rest r s') := by
  obtain ⟨r, s₁, ks, hloop, hfrom, hdraws, hlen⟩ :=
    @exists_sampleLoop db now s.keys.length { s with checked := 0, deleted := 0 } rng _ hsmall
      ⟨h.drawn, h.get⟩ ⟨le_rfl, le_rfl⟩
  obtain ⟨hsampled, hchecked, hdeleted, htotal⟩ := hdraws
  simp only [zero_add, sub_zero] at hchecked hdeleted htotal hsampled hlen
  have hcount := ks.countP_le_length (p := db.expired now)
  have hbefore := s.sampled.countP_le_length (p := db.expired now)
  have hsum : int32 (s₁.totalDeleted + s₁.deleted) =
      some (s₁.sampled.countP (db.expired now) : Int) := by
    rw [Counted] at hcounted
    rw [hsampled, hdeleted, htotal, hcounted, List.countP_append,
      int32_of_le (by omega) (by omega)]
    simp [add_comm]
  refine ⟨r, { s₁ with totalDeleted := s₁.sampled.countP (db.expired now) }, ks,
    ⟨hfrom.drawn, hfrom.get⟩, rfl, hsampled, hlen, ?_⟩
  have henough : enough sampleSize s₁.deleted s₁.checked =
      some (decide (Enough db now sampleSize ks)) := by
    rw [hdeleted, hchecked, enough_eq (by omega)]
  simp only [roundLoop, hloop, hsum, henough, Option.bind_eq_bind, Option.bind_some,
    decide_eq_true_eq, List.isEmpty_iff]
  rfl

/-! ## A run -/

/-- **The `do` loop**: it ends, and how many keys it draws when the first round
has them all, and when every key is expired. -/
theorem exists_roundLoop (rng : Nat → Nat) {sampleSize : Int} (hsmall : sampleSize < 2 ^ 27)
    (rounds : Nat) (h : s.From db now s.keys.length) (hcounted : s.Counted db now)
    (hbound : s.sampled.length + rounds * 2 ^ 27 ≤ 2 ^ 31) :
    ∃ r s', roundLoop rng now sampleSize rounds s = some s' ∧ s'.From db now r ∧
      s'.Counted db now ∧
      (0 < rounds → s.keys.length ≤ sampleSize →
        s'.sampled.length = s.sampled.length + s.keys.length) ∧
      ((∀ key ∈ db.keys, db.expired now key = true) → 0 < sampleSize →
        (s'.sampled.length : Int) =
          s.sampled.length + min (s.keys.length : Int) (rounds * sampleSize)) := by
  induction rounds generalizing s with
  | zero =>
      refine ⟨_, s, rfl, h, hcounted, ?_, ?_⟩
      · simp
      · simp
  | succ rounds ih =>
      obtain ⟨r, s₁, ks, h₁, hcounted₁, hsampled, hlen, hround⟩ :=
        exists_round rng hsmall rounds h hcounted (by omega)
      have hlength : s₁.sampled.length = ks.length + s.sampled.length := by
        rw [hsampled, List.length_append]
      have hleft : ks.length + r = s.keys.length := by
        have hbefore := h.drawn.length_add
        have hafter := h₁.drawn.length_add
        omega
      have hrest : (rest r s₁).keys.length = r := by
        have := h₁.drawn.le_length
        simp only [rest, List.length_take]
        omega
      have hmul : ((rounds + 1 : Nat) : Int) * sampleSize = rounds * sampleSize + sampleSize := by
        push_cast
        rw [add_mul, one_mul]
      have hnonneg : 0 < sampleSize → (0 : Int) ≤ rounds * sampleSize := fun _ => by positivity
      -- When all are expired, only a round with nothing to draw is the last.
      have hall : (∀ key ∈ db.keys, db.expired now key = true) →
          ks.countP (db.expired now) = ks.length := by
        intro hall
        rw [List.countP_eq_length]
        intro key hkey
        exact hall key (h₁.drawn.mem (hsampled ▸ List.mem_append_left _ hkey))
      by_cases hstop : Enough db now sampleSize ks
      · rw [if_pos hstop] at hround
        refine ⟨r, s₁, hround, h₁, hcounted₁, ?_, ?_⟩
        · intro _ hle
          omega
        · intro hexpired hpos
          rw [Enough, hall hexpired] at hstop
          have := hnonneg hpos
          rw [hmul]
          omega
      · rw [if_neg hstop] at hround
        by_cases hempty : (rest r s₁).keys = []
        · rw [if_pos hempty] at hround
          have hr : r = 0 := by rw [← hrest, hempty]; rfl
          refine ⟨_, _, hround, h₁.rest, hcounted₁, ?_, ?_⟩
          · intro _ hle
            show s₁.sampled.length = _
            omega
          · intro hexpired hpos
            show (s₁.sampled.length : Int) = _
            have := hnonneg hpos
            rw [hmul]
            omega
        · rw [if_neg hempty] at hround
          have hsampled₁ : (rest r s₁).sampled.length = ks.length + s.sampled.length := hlength
          obtain ⟨r', s', hloop, h', hcounted', hsmall', hall'⟩ :=
            ih h₁.rest hcounted₁ (by omega)
          refine ⟨r', s', hround.trans hloop, h', hcounted', ?_, ?_⟩
          · intro _ hle
            have : (rest r s₁).keys.length ≠ 0 := fun h0 => hempty (List.length_eq_zero_iff.mp h0)
            omega
          · intro hexpired hpos
            have hall'' := hall' hexpired hpos
            have := hnonneg hpos
            rw [hmul]
            omega

end Sampling

/-- Of the keys drawn exactly the expired ones are removed. -/
theorem Sampling.From.removed_perm {db : Dict} {now : TimePoint} {r : Nat} {s : Sampling}
    (h : s.From db now r) :
    (db.removed s.db).Perm (s.sampled.filter (db.expired now)) := by
  rw [List.perm_ext_iff_of_nodup (db.nodup_removed _) ((h.drawn.nodup db.nodup_keys).filter _)]
  intro key
  rw [Dict.mem_removed, List.mem_filter, Dict.existsKey_eq, Dict.existsKey_eq, h.get,
    Dict.expired_iff]
  by_cases hkey : key ∈ s.sampled
  · by_cases he : db.HasExpired now key
    · obtain ⟨obj, hget, -⟩ := id he
      simp [hkey, he, Dict.live_of_hasExpired he, hget]
    · simp [hkey, he, Dict.live_eq_get he, Option.isSome_iff_ne_none]
  · simp [hkey, Option.isSome_iff_ne_none]

/-- Only expired entries are removed. -/
theorem Sampling.From.get_cases {db : Dict} {now : TimePoint} {r : Nat} {s : Sampling}
    (h : s.From db now r) (key : Bytes) :
    s.db.get key = db.get key ∨ db.HasExpired now key ∧ s.db.get key = none := by
  rw [h.get]
  by_cases hkey : key ∈ s.sampled
  · rw [if_pos hkey]
    by_cases he : db.HasExpired now key
    · exact .inr ⟨he, Dict.live_of_hasExpired he⟩
    · exact .inl (Dict.live_eq_get he)
  · exact .inl (if_neg hkey)

/-- `PeriodicCheck` ends, from a key space without keys too. -/
theorem exists_periodicCheck (rng : Nat → Nat) (db : Dict) (now : TimePoint) {sampleSize : Int}
    (hsmall : sampleSize < 2 ^ 27) :
    ∃ r s, periodicCheck rng db now sampleSize = some (s.totalDeleted, s.db, s.sampled) ∧
      Sampling.From db now r s ∧ s.Counted db now ∧
      (db.size ≤ sampleSize → s.sampled.length = db.size) ∧
      ((∀ key ∈ db.keys, db.expired now key = true) → 0 < sampleSize →
        (s.sampled.length : Int) = min (db.size : Int) (16 * sampleSize)) := by
  have hstart : Sampling.From db now db.keys.length ⟨db, db.keys, 0, 0, 0, []⟩ :=
    ⟨.start _, by simp⟩
  by_cases hempty : db.keys = []
  · have hsize : db.size = 0 := by rw [Dict.size_eq, hempty]; rfl
    refine ⟨_, _, by simp [periodicCheck, hempty], hstart, rfl, ?_, ?_⟩
    · simp [hsize]
    · intro _ hpos
      simp only [hsize, List.length_nil]
      omega
  · obtain ⟨r, s, hloop, hfrom, hcounted, hfull, hall⟩ :=
      @Sampling.exists_roundLoop db now ⟨db, db.keys, 0, 0, 0, []⟩ rng _ hsmall kMaxLoops hstart
        rfl (by simp [kMaxLoops])
    simp only [List.length_nil, zero_add, ← Dict.size_eq] at hfull hall
    refine ⟨r, s, by simp [periodicCheck, hempty, hloop], hfrom, hcounted, ?_, ?_⟩
    · exact hfull (by simp [kMaxLoops])
    · intro hexpired hpos
      simpa [kMaxLoops] using hall hexpired hpos

/-- Commands see nothing of the periodic deletion. -/
theorem live_periodicCheck (rng : Nat → Nat) {db db' : Dict} {now : TimePoint}
    {sampleSize deleted : Int} {sampled : List Bytes} (hsmall : sampleSize < 2 ^ 27)
    (h : periodicCheck rng db now sampleSize = some (deleted, db', sampled)) (key : Bytes) :
    db'.live now key = db.live now key := by
  obtain ⟨r, s, heq, hfrom, -⟩ := exists_periodicCheck rng db now hsmall
  obtain rfl : s.db = db' := by
    rw [heq] at h
    exact congrArg (fun p => p.2.1) (Option.some.inj h)
  obtain hget | ⟨he, hget⟩ := hfrom.get_cases key
  · rw [Dict.live, hget]
    rfl
  · rw [Dict.live, hget, Dict.live_of_hasExpired he]
    rfl

/-- **Periodic deletion** is sound, its result is exact, and it makes progress:
whatever is drawn, it ends with a value. -/
theorem periodicCheck_spec (rng : Nat → Nat) (db : Dict) (now : TimePoint) (sampleSize : Int)
    (hsmall : sampleSize < 2 ^ 27) :
    ∃ deleted db' sampled, periodicCheck rng db now sampleSize = some (deleted, db', sampled) ∧
      sampled.Nodup ∧
      (∀ key, db'.get key = db.get key ∨ db.HasExpired now key ∧ db'.get key = none) ∧
      deleted = (db.removed db').length ∧
      (db.size ≤ sampleSize → ∀ key, db.HasExpired now key → db'.get key = none) ∧
      ((∀ key ∈ db.keys, db.HasExpired now key) → 0 < sampleSize →
        deleted = min (db.size : Int) (16 * sampleSize)) := by
  obtain ⟨r, s, heq, hfrom, hcounted, hfull, hall⟩ := exists_periodicCheck rng db now hsmall
  refine ⟨s.totalDeleted, s.db, s.sampled, heq, hfrom.drawn.nodup db.nodup_keys,
    hfrom.get_cases, ?_, ?_, ?_⟩
  · rw [hcounted, hfrom.removed_perm.length_eq, List.countP_eq_length_filter]
  · intro hle key he
    have hr : r = 0 := by
      have hlength := hfrom.drawn.length_add
      rw [hfull hle, Dict.size_eq] at hlength
      omega
    have hkey := (hr ▸ hfrom.drawn).mem_of_zero
      (Dict.mem_keys_of_expired (Dict.expired_iff.mpr he))
    rw [hfrom.get, if_pos hkey, Dict.live_of_hasExpired he]
  · intro hexpired hpos
    have hexpired' : ∀ key ∈ db.keys, db.expired now key = true :=
      fun key hkey => Dict.expired_iff.mpr (hexpired key hkey)
    have hcount : s.sampled.countP (db.expired now) = s.sampled.length :=
      List.countP_eq_length.mpr fun key hkey => hexpired' key (hfrom.drawn.mem hkey)
    rw [hcounted, hcount, hall hexpired' hpos]

/-- Two entries, one expired, and a sample of 20. -/
theorem periodicCheck_spec_two :
    ∃ db' sampled, periodicCheck (fun i => 7 * i + 1)
        (expiredEntry.set (ascii "l") .createList) 1 20 = some (1, db', sampled) ∧
      db'.get (ascii "k") = none := by
  obtain ⟨deleted, db', sampled, heq, -, -, -, hall, -⟩ :=
    periodicCheck_spec (fun i => 7 * i + 1) (expiredEntry.set (ascii "l") .createList) 1 20
      (by decide)
  have hgone := hall (by decide) (ascii "k") ⟨_, rfl, by decide⟩
  have hvalue : (periodicCheck (fun i => 7 * i + 1)
      (expiredEntry.set (ascii "l") .createList) 1 20).map Prod.fst = some 1 := by decide
  rw [heq] at hvalue
  obtain rfl : deleted = 1 := Option.some.inj hvalue
  exact ⟨db', sampled, heq, hgone⟩

end RedisLike
