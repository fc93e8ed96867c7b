import RedisLike.Command.Actions

/-!
# RedisLike.Command.Expiry

What a command can tell of an expired entry.

Two key spaces with the same live view (`SameLive`) are the same to every
command but `DEL`, which counts the entries it erases without a look at their
deadlines.  So removing the expired entries first (`Purged`), lazily or
periodically, is not seen, unless a `DEL` names one of them.
-/

namespace RedisLike

/-! ## Key spaces with one live view -/

/-- Commands see the same entries at `now`. -/
def SameLive (now : TimePoint) (db db' : Dict) : Prop := ∀ k, db.live now k = db'.live now k

/-- `db'` is `db` without the entries expired at `now`, in any iteration order. -/
def Purged (now : TimePoint) (db db' : Dict) : Prop := ∀ k, db'.get k = db.live now k

/-- The entry of a key is there and expired. -/
def Dict.HasExpired (db : Dict) (now : TimePoint) (key : Bytes) : Prop :=
  ∃ obj, db.get key = some obj ∧ obj.isExpired now = true

namespace Dict

variable {db : Dict} {now : TimePoint}

theorem live_eq_get {key : Bytes} (h : ¬ db.HasExpired now key) :
    db.live now key = db.get key := by
  unfold live
  cases hg : db.get key with
  | none => rfl
  | some obj =>
      refine liveEntry_eq_some.mpr ⟨rfl, ?_⟩
      rw [Bool.eq_false_iff]
      exact fun he => h ⟨obj, hg, he⟩

theorem live_of_hasExpired {key : Bytes} (h : db.HasExpired now key) :
    db.live now key = none := by
  obtain ⟨obj, hg, he⟩ := h
  simp [live, liveEntry, Option.filter, hg, he]

/-- Deleting an expired entry does not change the live view. -/
theorem live_del_of_hasExpired {key : Bytes} (h : db.HasExpired now key) (k : Bytes) :
    (db.del key).2.live now k = db.live now k := by
  rw [live, get_del]
  by_cases hk : k = key
  · rw [if_pos hk, hk, live_of_hasExpired h]
    rfl
  · rw [if_neg hk]
    rfl

theorem live_lazyCheck (db : Dict) (key : Bytes) (now : TimePoint) (k : Bytes) :
    (lazyCheck db key now).2.live now k = db.live now k := by
  rw [live, get_lazyCheck]
  by_cases hk : k = key
  · rw [if_pos hk, hk, live, liveEntry_liveEntry]
  · rw [if_neg hk]
    rfl

/-- The expired entries removed. -/
def purge (db : Dict) (now : TimePoint) : Dict :=
  db.keys.foldl (fun d k => (lazyCheck d k now).2) db

end Dict

/-- Lazy checks of some keys leave, at each of them, the live entry. -/
theorem get_foldl_lazyCheck (now : TimePoint) (keys : List Bytes) (db : Dict) (k : Bytes) :
    (keys.foldl (fun d k => (lazyCheck d k now).2) db).get k =
      if k ∈ keys then db.live now k else db.get k := by
  induction keys generalizing db with
  | nil => simp
  | cons key keys ih =>
      rw [List.foldl_cons, ih, Dict.live_lazyCheck, Dict.get_lazyCheck]
      by_cases hk : k = key <;> by_cases hm : k ∈ keys <;> simp [hk, hm]

theorem purged_purge (db : Dict) (now : TimePoint) : Purged now db (db.purge now) := by
  intro k
  rw [Dict.purge, get_foldl_lazyCheck]
  by_cases hk : k ∈ db.keys
  · rw [if_pos hk]
  · have hn : db.get k = none := by simpa [Dict.mem_keys] using hk
    rw [if_neg hk, Dict.live, hn]
    rfl

theorem Purged.sameLive {now : TimePoint} {db db' : Dict} (h : Purged now db db') :
    SameLive now db db' := by
  intro k
  rw [Dict.live, Dict.live, h k, Dict.live, liveEntry_liveEntry]

/-! ## One key -/

/-- **Frame**: an action replies and leaves by the live view alone. -/
theorem Performs.sameLive {f : Dict → Bytes × Dict} {now : TimePoint} {key : Bytes}
    {a : KeyAction} (hf : Performs f now key a) {db db' : Dict} (h : SameLive now db db') :
    (f db).1 = (f db').1 ∧ SameLive now (f db).2 (f db').2 := by
  cases a with
  | idle reply =>
      rw [hf db, hf db']
      exact ⟨rfl, h⟩
  | act g =>
      obtain ⟨hr, he⟩ := hf db
      obtain ⟨hr', he'⟩ := hf db'
      refine ⟨by rw [hr, hr', h key], fun k => ?_⟩
      rw [Dict.live, Dict.live, he, he', h key]
      by_cases hk : k = key
      · rw [if_pos hk, if_pos hk]
      · rw [if_neg hk, if_neg hk]
        exact h k

/-! ## Many keys -/

/-- The loop of `EXISTS` counts the live entries and leaves the live view. -/
theorem existsLoop_spec (now : TimePoint) (keys : List Bytes) (db : Dict) (count : Nat) :
    (existsLoop now keys db count).1 =
        count + keys.countP (fun k => (db.live now k).isSome) ∧
      SameLive now (existsLoop now keys db count).2 db := by
  induction keys generalizing db count with
  | nil => exact ⟨rfl, fun _ => rfl⟩
  | cons key keys ih =>
      have hlive := Dict.live_lazyCheck db key now
      obtain ⟨hcount, hsame⟩ := ih (lazyCheck db key now).2
        (if (db.live now key).isSome then count + 1 else count)
      rw [existsLoop, Dict.existsKey_eq, Dict.get_lazyCheck_self]
      refine ⟨?_, fun k => (hsame k).trans (hlive k)⟩
      simp only [hcount, hlive, List.countP_cons]
      split <;> omega

/-- The loop of `EXISTS` deletes the expired entries of its keys. -/
theorem get_existsLoop (now : TimePoint) (keys : List Bytes) (db : Dict) (count : Nat)
    (k : Bytes) : (existsLoop now keys db count).2.get k =
      if k ∈ keys then db.live now k else db.get k := by
  rw [← get_foldl_lazyCheck]
  induction keys generalizing db count with
  | nil => rfl
  | cons key keys ih =>
      rw [existsLoop, List.foldl_cons]
      exact ih _ _

/-- The loop of `KEYS` collects the live keys that match and leaves the live view. -/
theorem keysLoop_spec (now : TimePoint) (pattern : Bytes) (keys : List Bytes) (db : Dict) :
    (keysLoop now pattern keys db).1 =
        keys.filter (fun k => (db.live now k).isSome && matchGlob k pattern) ∧
      SameLive now (keysLoop now pattern keys db).2 db := by
  induction keys generalizing db with
  | nil => exact ⟨rfl, fun _ => rfl⟩
  | cons key keys ih =>
      rw [keysLoop]
      cases hg : db.get key with
      | none =>
          have hl : db.live now key = none := by rw [Dict.live, hg]; rfl
          simpa [hl] using ih db
      | some obj =>
          by_cases he : obj.isExpired now = true
          · have hexp : db.HasExpired now key := ⟨obj, hg, he⟩
            have hlive := Dict.live_del_of_hasExpired hexp
            obtain ⟨hkeys, hsame⟩ := ih (db.del key).2
            simp only [he, if_true]
            refine ⟨?_, fun k => (hsame k).trans (hlive k)⟩
            simp only [hkeys, hlive, List.filter_cons, Dict.live_of_hasExpired hexp]
            rfl
          · have hl : db.live now key = some obj :=
              liveEntry_eq_some.mpr ⟨hg, by simpa using he⟩
            obtain ⟨hkeys, hsame⟩ := ih db
            simp only [he, if_false, Bool.false_eq_true]
            refine ⟨?_, hsame⟩
            simp only [hkeys, List.filter_cons, hl, Option.isSome_some, Bool.true_and]

/-- The loop of `KEYS` deletes no entry but expired ones. -/
theorem get_keysLoop_or (now : TimePoint) (pattern : Bytes) (keys : List Bytes) (db : Dict)
    (k : Bytes) : (keysLoop now pattern keys db).2.get k = db.get k ∨
      (keysLoop now pattern keys db).2.get k = none ∧ db.HasExpired now k := by
  induction keys generalizing db with
  | nil => exact .inl rfl
  | cons key keys ih =>
      rw [keysLoop]
      cases hg : db.get key with
      | none => exact ih db
      | some obj =>
          by_cases he : obj.isExpired now = true
          · simp only [he, if_true]
            have hdel := Dict.get_del db key k
            by_cases hk : k = key
            · rw [if_pos hk] at hdel
              refine .inr ⟨?_, hk ▸ ⟨obj, hg, he⟩⟩
              exact (ih (db.del key).2).elim (fun h => h.trans hdel) And.left
            · rw [if_neg hk] at hdel
              refine (ih (db.del key).2).imp (fun h => h.trans hdel) (And.imp_right ?_)
              rintro ⟨obj', hobj', he'⟩
              exact ⟨obj', hdel ▸ hobj', he'⟩
          · simp only [he, if_false, Bool.false_eq_true]
            exact ih db

/-- `KEYS` collects the live keys that match, each once. -/
theorem keysLoop_perm {now : TimePoint} {db db' : Dict} (h : SameLive now db db')
    (pattern : Bytes) :
    (keysLoop now pattern db.keys db).1.Perm (keysLoop now pattern db'.keys db').1 := by
  rw [(keysLoop_spec now pattern db.keys db).1, (keysLoop_spec now pattern db'.keys db').1]
  have hmem : ∀ (d : Dict) (k : Bytes), (d.live now k).isSome → k ∈ d.keys := by
    intro d k hl
    obtain ⟨obj, ho⟩ := Option.isSome_iff_exists.mp hl
    rw [Dict.mem_keys, (liveEntry_eq_some.mp ho).1]
    rfl
  refine (List.perm_ext_iff_of_nodup (db.nodupKeys.filter _)
    (db'.nodupKeys.filter _)).mpr fun k => ?_
  simp only [List.mem_filter, Bool.and_eq_true, h k]
  constructor
  · exact fun ⟨_, hl, hp⟩ => ⟨hmem db' k hl, hl, hp⟩
  · exact fun ⟨_, hl, hp⟩ => ⟨hmem db k (by rw [h k]; exact hl), hl, hp⟩

/-- Different counts are different replies. -/
theorem integer_natCast_inj {m n : Nat} :
    RespCodec.integer (m : Int) = RespCodec.integer (n : Int) ↔ m = n := by
  refine ⟨fun h => ?_, fun h => by rw [h]⟩
  have hdec : toDecimal m = toDecimal n := by
    have hpos : ∀ k : Nat, ¬ (k : Int) < 0 := fun k => by omega
    simpa [RespCodec.integer, intToDecimal, hpos] using h
  rw [← digitsValue_toDecimal m, hdec, digitsValue_toDecimal]

/-- The loop of `DEL` counts the entries it erases, the expired ones too. -/
theorem delLoop_purged {now : TimePoint} (keys : List Bytes) {db db' : Dict} {count count' : Nat}
    (h : Purged now db db') (hle : count' ≤ count) :
    (delLoop keys db' count').1 ≤ (delLoop keys db count).1 ∧
      ((delLoop keys db count).1 = (delLoop keys db' count').1 ↔
        count = count' ∧ ∀ key ∈ keys, ¬ db.HasExpired now key) ∧
      Purged now (delLoop keys db count).2 (delLoop keys db' count').2 := by
  induction keys generalizing db db' count count' with
  | nil => simp [delLoop, hle, h]
  | cons key keys ih =>
      have hdel : Purged now (db.del key).2 (db'.del key).2 := by
        intro k
        rw [Dict.get_del, Dict.live, Dict.get_del, h k]
        by_cases hk : k = key <;> simp [hk, Dict.live, liveEntry]
      have hexp : ∀ k ∈ keys, ¬ db.HasExpired now key →
          ((db.del key).2.HasExpired now k ↔ db.HasExpired now k) := by
        intro k _ hn
        by_cases hk : k = key
        · subst hk
          simp only [Dict.HasExpired, Dict.get_del, if_true] at hn ⊢
          simpa using hn
        · simp [Dict.HasExpired, Dict.get_del, hk]
      simp only [delLoop, Dict.del_fst, h key]
      by_cases hx : db.HasExpired now key
      · -- counted in `db` alone
        obtain ⟨obj, hg, he⟩ := hx
        have hlive := Dict.live_of_hasExpired ⟨obj, hg, he⟩
        simp only [hg, hlive, Option.isSome_some, Option.isSome_none, if_true, if_false,
          Bool.false_eq_true]
        obtain ⟨hcount, heq, hpurged⟩ := ih hdel (show count' ≤ count + 1 by omega)
        refine ⟨hcount, ⟨fun hc => ?_, fun hc => ?_⟩, hpurged⟩
        · have := (heq.mp hc).1
          omega
        · exact absurd ⟨obj, hg, he⟩ (hc.2 key (by simp))
      · -- counted in both, or in neither
        rw [Dict.live_eq_get hx]
        obtain ⟨hcount, heq, hpurged⟩ := ih hdel
          (show (if (db.get key).isSome then count' + 1 else count') ≤
            (if (db.get key).isSome then count + 1 else count) by split <;> omega)
        refine ⟨hcount, heq.trans ?_, hpurged⟩
        have hsucc : ((if (db.get key).isSome then count + 1 else count) =
            if (db.get key).isSome then count' + 1 else count') ↔ count = count' := by
          split <;> omega
        rw [hsucc, List.forall_mem_cons, and_iff_right hx]
        exact and_congr_right fun _ => forall₂_congr fun k hk => not_congr (hexp k hk hx)

/-! ## All commands -/

/-- The replies agree, those of `KEYS` up to the order of the keys. -/
def SameReply (name reply reply' : Bytes) : Prop :=
  reply = reply' ∨ name = ascii "KEYS" ∧ ∃ items items' : List Bytes,
    items.Perm items' ∧ reply = bulkArray items ∧ reply' = bulkArray items'

/-- The command of `ctx` cannot tell the key space `db'` from its own. -/
def Indistinguishable (ctx : CmdContext) (db' : Dict) : Prop :=
  SameReply (normalize ctx.cmd.name) (execute ctx).1 (execute { ctx with db := db' }).1 ∧
    SameLive ctx.now (execute ctx).2 (execute { ctx with db := db' }).2

/-- The command of `ctx` is a `DEL` of an expired entry. -/
def DeletesExpired (ctx : CmdContext) : Prop :=
  normalize ctx.cmd.name = ascii "DEL" ∧ ∃ key ∈ ctx.cmd.args, ctx.db.HasExpired ctx.now key

/-- Every command but `DEL` depends on the live view alone. -/
theorem indistinguishable_of_ne_del {ctx : CmdContext} {db' : Dict}
    (h : SameLive ctx.now ctx.db db') (hdel : normalize ctx.cmd.name ≠ ascii "DEL") :
    Indistinguishable ctx db' := by
  unfold Indistinguishable execute
  simp only
  cases hf : findHandler (normalize ctx.cmd.name) with
  | none => exact ⟨.inl rfl, h⟩
  | some handler =>
      have honeKey : ∀ a, Performs (CmdHandler.on handler ctx) ctx.now (ctx.arg 0) a →
          SameReply (normalize ctx.cmd.name) (handler ctx).1 (handler { ctx with db := db' }).1 ∧
            SameLive ctx.now (handler ctx).2 (handler { ctx with db := db' }).2 :=
        fun a ha => (ha.sameLive h).imp_left .inl
      obtain ⟨act, -, ha⟩ | ⟨-, hr | ⟨hn, -⟩ | ⟨-, rfl⟩ | ⟨hn, rfl⟩⟩ := findHandler_spec hf
      · exact honeKey _ (ha ctx)
      · obtain ⟨a, ha, -⟩ := hr ctx
        exact honeKey a ha
      · exact absurd hn hdel
      · unfold existsCmd
        by_cases hargs : ctx.cmd.args.isEmpty = true
        · simp only [if_pos hargs]
          exact ⟨.inl rfl, h⟩
        · obtain ⟨hcount, hsame⟩ := existsLoop_spec ctx.now ctx.cmd.args ctx.db 0
          obtain ⟨hcount', hsame'⟩ := existsLoop_spec ctx.now ctx.cmd.args db' 0
          simp only [if_neg hargs, hcount, hcount', h _]
          exact ⟨.inl rfl, fun k => (hsame k).trans ((h k).trans (hsame' k).symm)⟩
      · unfold keysCmd
        by_cases hargs : ctx.cmd.args.isEmpty = true
        · simp only [if_pos hargs]
          exact ⟨.inl rfl, h⟩
        · have hsame := (keysLoop_spec ctx.now (ctx.arg 0) ctx.db.keys ctx.db).2
          have hsame' := (keysLoop_spec ctx.now (ctx.arg 0) db'.keys db').2
          simp only [if_neg hargs]
          exact ⟨.inr ⟨hn, _, _, keysLoop_perm h (ctx.arg 0), rfl, rfl⟩,
            fun k => (hsame k).trans ((h k).trans (hsame' k).symm)⟩

/-- **Expired entries are not seen, unless `DEL` counts one.**  A command
replies and leaves the same live view when the expired entries are removed
first, if and only if it is not a `DEL` of one of them. -/
theorem indistinguishable_purged_iff {ctx : CmdContext} {db' : Dict}
    (h : Purged ctx.now ctx.db db') : Indistinguishable ctx db' ↔ ¬ DeletesExpired ctx := by
  by_cases hdel : normalize ctx.cmd.name = ascii "DEL"
  · have hf : findHandler (ascii "DEL") = some delCmd := rfl
    unfold Indistinguishable execute DeletesExpired
    simp only [hdel, hf, true_and]
    unfold delCmd
    by_cases hargs : ctx.cmd.args.isEmpty = true
    · have hnil : ctx.cmd.args = [] := by simpa using hargs
      simp only [hnil, List.not_mem_nil, false_and, exists_false, not_false_eq_true,
        iff_true]
      exact ⟨.inl rfl, h.sameLive⟩
    · obtain ⟨-, hcount, hpurged⟩ := delLoop_purged ctx.cmd.args h (le_refl 0)
      have hname : ascii "DEL" ≠ ascii "KEYS" := by decide
      simp only [if_neg hargs, SameReply, hname, false_and, or_false, hpurged.sameLive, and_true,
        integer_natCast_inj, hcount, true_and, not_exists, not_and]
  · refine iff_of_true (indistinguishable_of_ne_del h.sameLive hdel) fun hx => hdel hx.1

/-- A key space with one entry, expired since instant 0. -/
def expiredEntry : Dict :=
  (∅ : Dict).set (ascii "k") ((RedisObject.createString (ascii "v")).withExpire (some 0))

theorem indistinguishable_purged_iff_exists :
    Indistinguishable ⟨expiredEntry, ⟨ascii "exists", [ascii "k"]⟩, 1, fun _ _ => 0⟩
        (expiredEntry.purge 1) ↔
      ¬ DeletesExpired ⟨expiredEntry, ⟨ascii "exists", [ascii "k"]⟩, 1, fun _ _ => 0⟩ :=
  indistinguishable_purged_iff (purged_purge expiredEntry 1)

/-- `DEL` counts a key that no other command sees any more. -/
theorem del_expiredEntry :
    (execute ⟨expiredEntry, ⟨ascii "DEL", [ascii "k"]⟩, 1, fun _ _ => 0⟩).1 =
        RespCodec.integer 1 ∧
      (execute ⟨expiredEntry.purge 1, ⟨ascii "DEL", [ascii "k"]⟩, 1, fun _ _ => 0⟩).1 =
        RespCodec.integer 0 ∧
      Purged 1 expiredEntry (expiredEntry.purge 1) ∧
      ¬ Indistinguishable ⟨expiredEntry, ⟨ascii "DEL", [ascii "k"]⟩, 1, fun _ _ => 0⟩
        (expiredEntry.purge 1) := by
  refine ⟨by decide, by decide, purged_purge expiredEntry 1, ?_⟩
  rintro ⟨h | ⟨h, -⟩, -⟩
  · exact absurd h (by decide)
  · exact absurd h (by decide)

end RedisLike
