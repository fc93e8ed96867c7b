import RedisLike.Lib.Distinct
import RedisLike.Server.History

/-!
# RedisLike.Server.OnTime

Expired entries stay in the key space until something looks at them.

`Op.onTime` is the server as its clients think of it: an entry is gone the moment
its deadline comes, and nothing has to look for expired keys.  The server of
the source, whose entries expire when a command touches them or a sample hits
them, gives the same replies along every run and shows the same entries, except
that `DEL` counts the expired entries that are still there (`runOps_onTime`).
-/

namespace RedisLike

open RedisServer

/-- An operation, on a key space where every entry goes when its deadline comes. -/
def Op.onTime (db : Dict) : Op → Dict
  | accept _ => db
  | command _ step => (response (db.purge step.now) step).2
  | expireCheck _ _ => db

/-- The key space behind some operations, every entry having gone on time. -/
def runOnTime (db : Dict) (ops : List Op) : Dict := ops.foldl Op.onTime db

theorem runOnTime_append (db : Dict) (ops ops' : List Op) :
    runOnTime db (ops ++ ops') = runOnTime (runOnTime db ops) ops' := List.foldl_append

/-- The expired entries among some keys. -/
def Dict.expiredAmong (db : Dict) (now : TimePoint) (keys : List Bytes) : Finset Bytes :=
  keys.toFinset.filter fun key => (db.get key).any fun obj => obj.isExpired now

/-! ## The live view, later on -/

theorem SameLive.mono {now now' : TimePoint} {db db' : Dict} (hle : now ≤ now')
    (h : SameLive now db db') : SameLive now' db db' := by
  intro key
  have hkey : liveEntry now (db.get key) = liveEntry now (db'.get key) := h key
  rw [Dict.live, Dict.live, ← liveEntry_of_le hle (db.get key), hkey, liveEntry_of_le hle]

theorem SameLive.trans {now : TimePoint} {db db' db'' : Dict} (h : SameLive now db db')
    (h' : SameLive now db' db'') : SameLive now db db'' := fun key => (h key).trans (h' key)

theorem SameLive.purge {now : TimePoint} {db db' : Dict} (h : SameLive now db db') :
    SameLive now db (db'.purge now) := h.trans (purged_purge db' now).sameLive

/-! ## Deletions -/

/-- `DEL` counts its keys that are there, each once. -/
theorem delLoop_fst (keys : List Bytes) (db : Dict) (count : Nat) :
    (delLoop keys db count).1 =
      count + (keys.toFinset.filter fun key => (db.get key).isSome).card := by
  refine @Distinct.loop_fst _ _ _ delLoop (fun key db => (db.del key).2)
    (fun db key => (db.get key).isSome = true) _ (fun _ => True) (fun _ _ => rfl)
    (fun _ _ _ _ => rfl) (fun _ _ _ => trivial) (fun key db _ k => ?_) keys db trivial count
  rw [Dict.get_del]
  split
  · next hk => simp [hk]
  · next hk => exact (and_iff_left hk).symm

/-- Of the keys that are there, some are seen and the others have expired. -/
theorem card_isSome (db : Dict) (now : TimePoint) (keys : List Bytes) :
    (keys.toFinset.filter fun key => (db.get key).isSome).card =
      (keys.toFinset.filter fun key => (db.live now key).isSome).card +
        (db.expiredAmong now keys).card := by
  rw [← Finset.card_union_of_disjoint]
  · congr 1
    ext key
    rw [Finset.mem_union, Finset.mem_filter, Finset.mem_filter, Dict.expiredAmong,
      Finset.mem_filter, ← and_or_left, Dict.live]
    cases db.get key with
    | none => simp [liveEntry]
    | some obj => by_cases he : obj.isExpired now = true <;> simp [liveEntry, Option.filter, he]
  · refine Finset.disjoint_filter.mpr fun key _ hlive hexpired => ?_
    rw [Dict.live] at hlive
    cases hget : db.get key with
    | none =>
        rw [hget] at hlive
        contradiction
    | some obj =>
        rw [hget] at hlive hexpired
        simp [liveEntry, Option.filter, show obj.isExpired now = true from hexpired] at hlive

/-- A `DEL` with some keys replies the number of them that are there. -/
theorem response_del {step : Step} (hname : normalize step.cmd.name = ascii "DEL")
    (hargs : step.cmd.args ≠ []) (db : Dict) :
    response db step =
      (RespCodec.integer (delLoop step.cmd.args db 0).1, (delLoop step.cmd.args db 0).2) := by
  have hf : findHandler (ascii "DEL") = some delCmd := rfl
  have hne : ¬ step.cmd.args.isEmpty = true := by simpa using hargs
  rw [response_eq, execute, Step.context, hname, hf]
  dsimp only
  rw [delCmd, if_neg hne]

/-- The live view behind a deletion. -/
theorem delLoop_sameLive {now : TimePoint} (keys : List Bytes) {db db' : Dict} (count count' : Nat)
    (h : SameLive now db db') :
    SameLive now (delLoop keys db count).2 (delLoop keys db' count').2 := by
  intro key
  rw [Dict.live, get_delLoop, Dict.live, get_delLoop]
  split
  · rfl
  · exact h key

/-! ## One command -/

/-- A command replies in `exact` what it does in `db`, a deletion without the expired
entries that it counts in `db`. -/
def RepliesOnTime (step : Step) (db exact : Dict) : Prop :=
  if normalize step.cmd.name = ascii "DEL" ∧ step.cmd.args ≠ [] then
    ∃ n : Nat, (response exact step).1 = RespCodec.integer n ∧
      (response db step).1 =
        RespCodec.integer (n + (db.expiredAmong step.now step.cmd.args).card : Nat)
  else SameReply (normalize step.cmd.name) (response db step).1 (response exact step).1

/-- **One command**: on the same live entries it replies the same, and leaves the
same. -/
theorem response_onTime {step : Step} {db exact : Dict} (h : SameLive step.now db exact) :
    RepliesOnTime step db (exact.purge step.now) ∧
      SameLive step.now (response db step).2 (response (exact.purge step.now) step).2 := by
  unfold RepliesOnTime
  by_cases hdel : normalize step.cmd.name = ascii "DEL"
  · by_cases hargs : step.cmd.args = []
    · have hf : findHandler (ascii "DEL") = some delCmd := rfl
      have hreply : ∀ d : Dict, response d step = ((delCmd ⟨∅, step.cmd, 0, step.rng⟩).1, d) := by
        intro d
        rw [response_eq, execute, Step.context, hdel, hf]
        simp [delCmd, hargs]
      rw [if_neg fun hne => hne.2 hargs, hreply, hreply]
      exact ⟨.inl rfl, h.purge⟩
    · have hpurge : ∀ key, ((exact.purge step.now).get key).isSome =
          (db.live step.now key).isSome := fun key => by
        rw [purged_purge exact step.now key, h key]
      rw [if_pos ⟨hdel, hargs⟩, response_del hdel hargs, response_del hdel hargs]
      refine ⟨⟨_, rfl, ?_⟩, delLoop_sameLive step.cmd.args 0 0 h.purge⟩
      simp only [delLoop_fst, card_isSome db step.now, hpurge, Nat.zero_add]
  · rw [if_neg fun hne => hdel hne.1, response_eq, response_eq]
    exact @indistinguishable_of_ne_del (step.context db) (exact.purge step.now) h.purge hdel

/-! ## Runs -/

/-- **A run** shows the entries that are left on time. -/
theorem runOps_sameLive {ops : List Op} (hclock : ClockForward ops) {now : TimePoint}
    (htime : Until now ops) (db : Dict) : SameLive now (runOps db ops) (runOnTime db ops) := by
  induction ops using List.reverseRecOn generalizing now with
  | nil => exact fun _ => rfl
  | append_singleton ops op ih =>
      rw [runOps_append, runOnTime_append]
      obtain ⟨hbefore, hlast⟩ := htime.of_append
      cases op with
      | accept fd => exact ih hclock.append.1 hbefore
      | command fd step =>
          have hle : step.now ≤ now := hlast _ (List.mem_singleton_self _) step.now rfl
          exact (response_onTime (ih hclock.append.1 hclock.until)).2.mono hle
      | expireCheck now' rng =>
          have hkept : SameLive now ((Op.expireCheck now' rng).after (runOps db ops))
              (runOps db ops) := fun key =>
            Op.live_after id (hlast _ (List.mem_singleton_self _)) (runOps db ops)
          exact hkept.trans (ih hclock.append.1 hbefore)

/-- **Expiration is on time, as far as clients see.**  When the clock does not go
back, every command of a run replies what it does on a key space where every
entry goes when its deadline comes, whatever the periodic checks have found
before it; a `DEL` also counts the expired entries that are still there.  And at
every later time the same entries are seen. -/
theorem runOps_onTime {pre post : List Op} {fd : Nat} {step : Step}
    (hclock : ClockForward (pre ++ .command fd step :: post)) (db : Dict) :
    RepliesOnTime step (runOps db pre) ((runOnTime db pre).purge step.now) ∧
      ∀ now, Until now (pre ++ [.command fd step]) →
        SameLive now (runOps db (pre ++ [.command fd step]))
          (runOnTime db (pre ++ [.command fd step])) := by
  refine ⟨(response_onTime (runOps_sameLive hclock.append.1 hclock.until db)).1, ?_⟩
  intro now htime
  refine runOps_sameLive ?_ htime db
  rw [List.append_cons] at hclock
  exact hclock.append.1

/-- A volatile key, a deletion of it when it has expired, and another deletion. -/
theorem runOps_onTime_del :
    RepliesOnTime ⟨⟨2, fun _ _ => 0⟩, ⟨ascii "del", [ascii "k"]⟩⟩ (runOps expiredEntry [.accept 5])
      ((runOnTime expiredEntry [.accept 5]).purge 2) :=
  (@runOps_onTime [.accept 5] [.expireCheck 3 fun _ => 0] 5
    ⟨⟨2, fun _ _ => 0⟩, ⟨ascii "del", [ascii "k"]⟩⟩ (by decide) expiredEntry).1

end RedisLike
