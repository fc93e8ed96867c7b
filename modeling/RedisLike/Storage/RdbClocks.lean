import RedisLike.Storage.RdbObject

/-!
# RedisLike.Storage.RdbClocks

A snapshot that is saved by one process and loaded by another.

The snapshot holds the reading of the writer's clock at which a key expires, and
the reader compares it with its own.  A steady clock has no epoch, so the two
clocks agree only if they were started at the same instant:
`load_keepsDeadline_iff`.
-/

namespace RedisLike

/-! ## Clocks -/

/-- The steady clock of a process: the instant at which it reads 0, in
nanoseconds of real time. -/
structure SteadyClock where
  origin : Int

namespace SteadyClock

/-- What the clock reads at an instant of real time. -/
def reading (clock : SteadyClock) (instant : Int) : Int := instant - clock.origin

/-- The time that is left at an instant until the deadline, negative if it has passed. -/
def timeLeft (clock : SteadyClock) (at_ : TimePoint) (instant : Int) : Int :=
  at_.toInt - clock.reading instant

end SteadyClock

namespace RdbSaver

/-! ## Deadlines that are loaded -/

/-- What writing whole milliseconds cuts off. -/
def cutOff (at_ : TimePoint) : Int := at_.toInt - wholeMilliseconds at_.toInt

theorem cutOff_bounds (at_ : TimePoint) : -1000000 < cutOff at_ ∧ cutOff at_ < 1000000 := by
  have hmod : cutOff at_ = at_.toInt.tmod 1000000 := by
    rw [Int.tmod_def, Int.mul_comm]
    rfl
  rw [hmod]
  exact ⟨Int.lt_tmod_of_pos _ (by decide), Int.tmod_lt_of_pos _ (by decide)⟩

/-- The error of a deadline that was saved by one clock and loaded by another:
the distance of the two origins, less what is cut off.  The instants do not matter. -/
theorem timeLeft_loaded (writer reader : SteadyClock) (at_ : TimePoint) (saved loaded : Int) :
    reader.timeLeft (ofMilliseconds (toMilliseconds at_)) loaded -
        (writer.timeLeft at_ saved - (loaded - saved)) =
      reader.origin - writer.origin - cutOff at_ := by
  simp only [SteadyClock.timeLeft, SteadyClock.reading, toInt_ofMilliseconds, cutOff,
    wholeMilliseconds]
  omega

/-- Loading at the instant `loaded` what was saved at the instant `saved` keeps
the deadline `at_` of `key`: the time left is that which was left less the time
between, to within a millisecond. -/
def KeepsDeadline (rng : Nat → Nat → Nat → Nat) (db : Dict) (writer reader : SteadyClock)
    (saved loaded : Int) (key : Bytes) (at_ : TimePoint) : Prop :=
  ∃ obj at_', (load rng (some (save db)) ∅).2.get key = some obj ∧ obj.expireAt = some at_' ∧
    |reader.timeLeft at_' loaded - (writer.timeLeft at_ saved - (loaded - saved))| ≤ 1000000

/-- `Load` comes to the key: no key that `Save` writes up to it reads as the end
of the file. -/
def Reached (db : Dict) (key : Bytes) : Prop := key ∈ (db.pairs.takeWhile Plain).map Prod.fst

/-- A key with a deadline is loaded with the milliseconds of its deadline, if
`Load` comes to it, and else is missing. -/
theorem get_load_of_expireAt (rng : Nat → Nat → Nat → Nat) {db : Dict} (h : FitsRdb db)
    {key : Bytes} {obj : RedisObject} {at_ : TimePoint} (hget : db.get key = some obj)
    (hat : obj.expireAt = some at_) :
    (Reached db key → ∃ obj', (load rng (some (save db)) ∅).2.get key = some obj' ∧
      obj'.expireAt = some (ofMilliseconds (toMilliseconds at_))) ∧
    (¬ Reached db key → (load rng (some (save db)) ∅).2.get key = none) := by
  obtain ⟨-, hmem, hother⟩ := load_save rng h
  refine ⟨fun hreached => ?_, hother key⟩
  obtain ⟨kv, hkv, rfl⟩ := List.mem_map.mp hreached
  obtain ⟨obj', hobj', hsame, -⟩ := hmem kv hkv
  have hkv' : db.get kv.1 = some kv.2 :=
    UnorderedMap.mem_pairs.mp ((List.takeWhile_sublist Plain).subset hkv)
  rw [hkv'] at hget
  obtain rfl := Option.some.inj hget
  refine ⟨obj', hobj', ?_⟩
  rw [hsame.expireAt, truncated, RedisObject.expireAt_withExpire, hat, Option.map_some]

/-- A deadline that is kept was loaded, by a clock with about the same origin. -/
theorem KeepsDeadline.close {rng : Nat → Nat → Nat → Nat} {db : Dict} (h : FitsRdb db)
    {key : Bytes} {obj : RedisObject} {at_ : TimePoint} (hget : db.get key = some obj)
    (hat : obj.expireAt = some at_) {writer reader : SteadyClock} {saved loaded : Int}
    (hkeeps : KeepsDeadline rng db writer reader saved loaded key at_) :
    Reached db key ∧ |reader.origin - writer.origin - cutOff at_| ≤ 1000000 := by
  obtain ⟨obj', at_', hobj', hat', hclose⟩ := hkeeps
  obtain ⟨hloaded, hlost⟩ := get_load_of_expireAt rng h hget hat
  have hreached : Reached db key := by
    by_contra hnot
    rw [hlost hnot] at hobj'
    contradiction
  obtain ⟨obj'', hobj'', hat''⟩ := hloaded hreached
  rw [hobj''] at hobj'
  obtain rfl := Option.some.inj hobj'
  rw [hat''] at hat'
  obtain rfl := Option.some.inj hat'
  rw [timeLeft_loaded] at hclose
  exact ⟨hreached, hclose⟩

/-- **When a deadline survives a restart**: exactly if the key is loaded and the
clocks have the same origin, to within a millisecond and what is cut off. -/
theorem load_keepsDeadline_iff (rng : Nat → Nat → Nat → Nat) {db : Dict} (h : FitsRdb db)
    {key : Bytes} {obj : RedisObject} {at_ : TimePoint} (hget : db.get key = some obj)
    (hat : obj.expireAt = some at_) (writer reader : SteadyClock) (saved loaded : Int) :
    KeepsDeadline rng db writer reader saved loaded key at_ ↔
      Reached db key ∧ |reader.origin - writer.origin - cutOff at_| ≤ 1000000 := by
  refine ⟨KeepsDeadline.close h hget hat, ?_⟩
  rintro ⟨hreached, hclose⟩
  obtain ⟨obj', hobj', hat'⟩ := (get_load_of_expireAt rng h hget hat).1 hreached
  refine ⟨obj', _, hobj', hat', ?_⟩
  rwa [timeLeft_loaded]

/-- A key with 60 seconds left after an hour of uptime. -/
def inAnHour : Dict :=
  (∅ : Dict).set (ascii "k")
    ((RedisObject.createString (ascii "v")).withExpire (some 3660000000000))

theorem fitsRdb_inAnHour : FitsRdb inAnHour :=
  fitsRdb_single (by decide) ⟨(by decide : (ascii "v").length < 2 ^ 32), trivial⟩

theorem get_inAnHour : inAnHour.get (ascii "k") =
    some ((RedisObject.createString (ascii "v")).withExpire (some 3660000000000)) := by
  rw [inAnHour, Dict.get_set, if_pos rfl]

theorem load_keepsDeadline_iff_inAnHour :
    KeepsDeadline (fun _ _ _ => 0) inAnHour ⟨0⟩ ⟨0⟩ 3600000000000 3620000000000 (ascii "k")
        3660000000000 ↔
      Reached inAnHour (ascii "k") ∧ |0 - 0 - cutOff 3660000000000| ≤ 1000000 :=
  load_keepsDeadline_iff (fun _ _ _ => 0) fitsRdb_inAnHour get_inAnHour rfl ⟨0⟩ ⟨0⟩ 3600000000000
    3620000000000

/-- After a reboot a key with 60 seconds left is loaded with more than an hour. -/
theorem load_reboot :
    FitsRdb inAnHour ∧
      (inAnHour.get (ascii "k")).map RedisObject.expireAt = some (some 3660000000000) ∧
      SteadyClock.timeLeft ⟨0⟩ 3660000000000 3600000000000 = 60000000000 ∧
      ¬ KeepsDeadline (fun _ _ _ => 0) inAnHour ⟨0⟩ ⟨3610000000000⟩ 3600000000000 3620000000000
        (ascii "k") 3660000000000 := by
  refine ⟨fitsRdb_inAnHour, by rw [get_inAnHour]; rfl, by decide, fun hkeeps => ?_⟩
  have hclose := (hkeeps.close fitsRdb_inAnHour get_inAnHour rfl).2
  have hbounds := cutOff_bounds 3660000000000
  rw [abs_le] at hclose
  dsimp only at hclose
  omega

end RdbSaver

end RedisLike
