import RedisLike.Server.OnTime

/-!
# RedisLike.Server.Tenants

Clients that keep to a part of the key space do not notice the others.

A run is cut down to the commands on the keys of one part (`Op.inside`).  If the
operations that are dropped do not write to these keys, every command that is
kept replies as in the whole run (`runOps_tenant`), whatever the periodic checks
find: only `DEL` tells, by the expired entries that it counts.
-/

namespace RedisLike

open RedisServer

/-- The operation is a command on keys of the part alone. -/
def Op.inside (mine : Bytes → Bool) : Op → Bool
  | command _ step => step.cmd.keys.all mine && decide (normalize step.cmd.name ≠ ascii "KEYS")
  | _ => false

/-- What is not on keys of the part alone does not write to any of them. -/
def Separate (mine : Bytes → Bool) (ops : List Op) : Prop :=
  ∀ op ∈ ops, op.inside mine = false → ∀ key, mine key = true → ¬ op.Writes key

/-- The same entries of the part are seen. -/
def SameLiveOn (mine : Bytes → Bool) (now : TimePoint) (db db' : Dict) : Prop :=
  ∀ key, mine key = true → db.live now key = db'.live now key

theorem SameLiveOn.mono {mine : Bytes → Bool} {now now' : TimePoint} {db db' : Dict}
    (hle : now ≤ now') (h : SameLiveOn mine now db db') : SameLiveOn mine now' db db' := by
  intro key hkey
  have hlive : liveEntry now (db.get key) = liveEntry now (db'.get key) := h key hkey
  rw [Dict.live, Dict.live, ← liveEntry_of_le hle (db.get key), hlive, liveEntry_of_le hle]

/-- A command replies the same in both key spaces, a deletion without the expired
entries that it counts in each of them. -/
def RepliesAlike (step : Step) (db db' : Dict) : Prop :=
  if normalize step.cmd.name = ascii "DEL" ∧ step.cmd.args ≠ [] then
    ∃ n : Nat,
      (response db step).1 =
        RespCodec.integer (n + (db.expiredAmong step.now step.cmd.args).card : Nat) ∧
      (response db' step).1 =
        RespCodec.integer (n + (db'.expiredAmong step.now step.cmd.args).card : Nat)
  else (response db step).1 = (response db' step).1

/-- **One command** on keys of the part. -/
theorem response_inside {mine : Bytes → Bool} {fd : Nat} {step : Step} {db db' : Dict}
    (hinside : (Op.command fd step).inside mine = true) (h : SameLiveOn mine step.now db db') :
    RepliesAlike step db db' ∧
      SameLiveOn mine step.now (response db step).2 (response db' step).2 := by
  rw [Op.inside, Bool.and_eq_true, List.all_eq_true, decide_eq_true_eq] at hinside
  obtain ⟨hmine, hname⟩ := hinside
  have htouches : Touches Dict.get {k | k ∈ step.cmd.keys} fun d => response d step := by
    simp only [response_eq]
    exact execute_touches hname step.now step.rng
  -- without their expired entries, the two agree on the keys of the command
  have heq : Set.EqOn (db.purge step.now).get (db'.purge step.now).get {k | k ∈ step.cmd.keys} :=
    fun key hkey => by rw [purged_purge, purged_purge, h key (hmine key hkey)]
  have hreply := htouches.result _ _ heq
  obtain ⟨hontime, hlive⟩ := @response_onTime step db db fun _ => rfl
  obtain ⟨hontime', hlive'⟩ := @response_onTime step db' db' fun _ => rfl
  refine ⟨?_, fun key hkey => ?_⟩
  · unfold RepliesOnTime at hontime hontime'
    unfold RepliesAlike
    split at hontime
    · next hdel =>
      rw [if_pos hdel] at hontime' ⊢
      obtain ⟨n, hn, hreply₁⟩ := hontime
      obtain ⟨n', hn', hreply₂⟩ := hontime'
      have hnn : n = n' := integer_natCast_inj.mp (hn.symm.trans (hreply.trans hn'))
      exact ⟨n, hreply₁, hnn ▸ hreply₂⟩
    · next hdel =>
      rw [if_neg hdel] at hontime' ⊢
      have hsame : ∀ d, SameReply (normalize step.cmd.name) (response d step).1
          (response (d.purge step.now) step).1 →
            (response d step).1 = (response (d.purge step.now) step).1 :=
        fun d hd => hd.resolve_right fun hkeys => hname hkeys.1
      rw [hsame db hontime, hsame db' hontime', hreply]
  · rw [hlive key, hlive' key]
    by_cases hmem : key ∈ step.cmd.keys
    · rw [Dict.live, htouches.cells _ _ heq hmem]
      rfl
    · have hframe : ∀ d : Dict, (response (d.purge step.now) step).2.live step.now key =
          d.live step.now key := fun d => by
        rw [Dict.live, htouches.frame _ key hmem, purged_purge, Dict.live, liveEntry_liveEntry]
      rw [hframe, hframe, h key hkey]

/-! ## Runs -/

/-- **A run** leaves of the part what the run of its own commands leaves. -/
theorem runOps_sameLiveOn {mine : Bytes → Bool} {ops : List Op} (hclock : ClockForward ops)
    (hseparate : Separate mine ops) {now : TimePoint} (htime : Until now ops) (db : Dict) :
    SameLiveOn mine now (runOps db ops) (runOps db (ops.filter (Op.inside mine))) := by
  induction ops using List.reverseRecOn generalizing now with
  | nil => exact fun _ _ => rfl
  | append_singleton ops op ih =>
      obtain ⟨hbefore, hlast⟩ := htime.of_append
      have hseparate' : Separate mine ops := fun op' hop =>
        hseparate op' (List.mem_append_left _ hop)
      rw [runOps_append, List.filter_append, runOps_append]
      cases hinside : op.inside mine with
      | true =>
          cases op with
          | accept fd => contradiction
          | expireCheck now' rng => contradiction
          | command fd step =>
              have hle : step.now ≤ now := hlast _ (List.mem_singleton_self _) step.now rfl
              rw [List.filter_singleton, hinside]
              exact (response_inside hinside
                (ih hclock.append.1 hseparate' hclock.until)).2.mono hle
      | false =>
          rw [List.filter_singleton, hinside]
          intro key hkey
          have hwrites := hseparate op (by simp) hinside key hkey
          exact (op.live_after hwrites (hlast op (by simp)) _).trans
            (ih hclock.append.1 hseparate' hbefore key hkey)

/-- **Nobody notices the others.**  When the clock does not go back, and what is not
on keys of one part alone writes to none of them, every command of the part
replies as in the run of the commands of the part alone, and the same entries of
the part are seen at any later time. -/
theorem runOps_tenant {mine : Bytes → Bool} {pre post : List Op} {fd : Nat} {step : Step}
    (hclock : ClockForward (pre ++ .command fd step :: post))
    (hseparate : Separate mine (pre ++ .command fd step :: post))
    (hinside : (Op.command fd step).inside mine = true) (db : Dict) :
    RepliesAlike step (runOps db pre) (runOps db (pre.filter (Op.inside mine))) ∧
      ∀ now, Until now pre →
        SameLiveOn mine now (runOps db pre) (runOps db (pre.filter (Op.inside mine))) := by
  have hseparate' : Separate mine pre := fun op hop => hseparate op (List.mem_append_left _ hop)
  refine ⟨?_, fun now htime => runOps_sameLiveOn hclock.append.1 hseparate' htime db⟩
  exact (response_inside hinside
    (runOps_sameLiveOn hclock.append.1 hseparate' hclock.until db)).1

/-- The keys that start with `a`. -/
def startsWithA (key : Bytes) : Bool := key.head? = some 97

/-- Two clients: one of these keys, the other of another, and a check. -/
def tenantOps : List Op :=
  [ .command 6 ⟨⟨1, fun _ _ => 0⟩, ⟨ascii "set", [ascii "a1", ascii "w"]⟩⟩,
    .command 5 ⟨⟨2, fun _ _ => 0⟩, ⟨ascii "SET", [ascii "b", ascii "v"]⟩⟩,
    .expireCheck 3 fun _ => 0 ]

theorem runOps_tenant_get :
    RepliesAlike ⟨⟨4, fun _ _ => 0⟩, ⟨ascii "get", [ascii "a1"]⟩⟩ (runOps ∅ tenantOps)
        (runOps ∅ [.command 6 ⟨⟨1, fun _ _ => 0⟩, ⟨ascii "set", [ascii "a1", ascii "w"]⟩⟩]) ∧
      ∀ now, Until now tenantOps → SameLiveOn startsWithA now (runOps ∅ tenantOps)
        (runOps ∅ [.command 6 ⟨⟨1, fun _ _ => 0⟩, ⟨ascii "set", [ascii "a1", ascii "w"]⟩⟩]) := by
  refine @runOps_tenant startsWithA tenantOps [] 6
    ⟨⟨4, fun _ _ => 0⟩, ⟨ascii "get", [ascii "a1"]⟩⟩ (by decide) ?_ (by decide) ∅
  intro op hop houtside key hkey hwrites
  simp only [tenantOps, List.cons_append, List.nil_append, List.mem_cons, List.not_mem_nil,
    or_false] at hop
  rcases hop with rfl | rfl | rfl | rfl
  · contradiction
  · have hkeyb : key = ascii "b" := List.mem_singleton.mp hwrites.2
    rw [hkeyb] at hkey
    contradiction
  · exact hwrites
  · contradiction

end RedisLike
