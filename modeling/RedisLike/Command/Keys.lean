import RedisLike.Command.Expiry
import RedisLike.Command.Glob
import RedisLike.Resp.Reply

/-!
# RedisLike.Command.Keys

`KEYS *`: which keys the reply lists, and what is left of the key space.

`MatchGlob` takes a first byte of the key that is a star for the star of the
pattern.  That uses the pattern up, so only the key `*` itself is found of the
keys that begin so (`matchGlob_star`).
-/

namespace RedisLike

/-! ## The matcher -/

/-- The key begins with a star and goes on behind it. -/
def StarredKey (key : Bytes) : Prop := ∃ b rest, key = 42 :: b :: rest

/-- Behind its star, the pattern skips to the end of the key. -/
theorem globLoop_behind_star (str : Bytes) (fuel si : Nat) :
    globLoop str [42] fuel si 1 (some 0) si = some 1 := by
  induction fuel generalizing si with
  | zero => rfl
  | succ fuel ih =>
      rw [globLoop]
      by_cases hsi : si < str.length
      · simp only [if_pos hsi]
        exact ih (si + 1)
      · rw [if_neg hsi]

/-- The pattern `*` takes every key that is not starred. -/
theorem matchGlob_star (key : Bytes) : matchGlob key [42] = true ↔ ¬ StarredKey key := by
  unfold matchGlob
  cases key with
  | nil => simp [globLoop, StarredKey]
  | cons c rest =>
      rw [show ((c :: rest).length + 1) * (([42] : Bytes).length + 1) =
        rest.length * 2 + 2 + 1 + 1 by simp; omega, globLoop]
      by_cases hc : c = 42
      · subst hc
        cases rest with
        | nil => simp [globLoop, StarredKey]
        | cons b rest => simp [globLoop, StarredKey]
      · have hc' : ¬ 42 = c := fun h => hc h.symm
        simp [StarredKey, hc, hc', globLoop_behind_star]

/-! ## The loop over the keys -/

/-- The loop deletes the expired ones of the keys that it looks at. -/
theorem get_keysLoop_eq (now : TimePoint) (pattern : Bytes) (keys : List Bytes) (db : Dict)
    (k : Bytes) : (keysLoop now pattern keys db).2.get k =
      if k ∈ keys then db.live now k else db.get k := by
  induction keys generalizing db with
  | nil => rfl
  | cons key keys ih =>
      have hcons : ∀ (d : Dict), (d.live now k = db.live now k) →
          (k ≠ key → d.get k = db.get k) → (k = key → d.get k = db.live now k) →
          (keysLoop now pattern keys d).2.get k =
            if k ∈ key :: keys then db.live now k else db.get k := by
        intro d hlive hne heq
        rw [ih d]
        by_cases hmem : k ∈ keys
        · rw [if_pos hmem, if_pos (List.mem_cons_of_mem key hmem), hlive]
        · by_cases hk : k = key
          · rw [if_neg hmem, if_pos (by simp [hk]), heq hk]
          · rw [if_neg hmem, if_neg (by simp [hk, hmem]), hne hk]
      rw [keysLoop]
      cases hg : db.get key with
      | none =>
          refine hcons db rfl (fun _ => rfl) ?_
          rintro rfl
          rw [Dict.live, hg]
          rfl
      | some obj =>
          by_cases he : obj.isExpired now = true
          · have hexp : db.HasExpired now key := ⟨obj, hg, he⟩
            simp only [he, if_true]
            refine hcons _ (Dict.live_del_of_hasExpired hexp k) (fun hk => ?_) ?_
            · rw [Dict.get_del, if_neg hk]
            · rintro rfl
              rw [Dict.get_del, if_pos rfl, Dict.live_of_hasExpired hexp]
          · simp only [he, if_false, Bool.false_eq_true]
            refine hcons db rfl (fun _ => rfl) ?_
            rintro rfl
            refine (Dict.live_eq_get ?_).symm
            rintro ⟨obj', hobj', he'⟩
            rw [hg] at hobj'
            cases hobj'
            exact he he'

/-! ## The command -/

/-- A client reads the reply as an array of these keys. -/
def RepliesKeys (reply : Bytes) (keys : List Bytes) : Prop :=
  RespValue.read 2 reply = some (.array (keys.map fun k => .bulk (some k)), [])

/-- The command lists each live key once and nothing else, and leaves the live
keys with their entries, and no others. -/
def ListsLiveKeys (ctx : CmdContext) : Prop :=
  (∃ keys, RepliesKeys (execute ctx).1 keys ∧ keys.Nodup ∧
    ∀ key, key ∈ keys ↔ (ctx.db.live ctx.now key).isSome) ∧
  Purged ctx.now ctx.db (execute ctx).2

theorem repliesKeys_bulkArray {keys keys' : List Bytes} :
    RepliesKeys (bulkArray keys) keys' ↔ keys' = keys := by
  rw [RepliesKeys, bulkArray, read_bulkStrings]
  constructor
  · intro h
    exact (bulks_injective (congrArg Prod.fst (Option.some.inj h))).symm
  · rintro rfl
    rfl

/-- What `KEYS` replies and leaves, for any pattern. -/
theorem execute_keys {ctx : CmdContext} (hname : normalize ctx.cmd.name = ascii "KEYS")
    {pattern : Bytes} {rest : List Bytes} (hargs : ctx.cmd.args = pattern :: rest) :
    execute ctx = (bulkArray (ctx.db.keys.filter fun key =>
        (ctx.db.live ctx.now key).isSome && matchGlob key pattern),
      (keysLoop ctx.now pattern ctx.db.keys ctx.db).2) := by
  have hf : findHandler (normalize ctx.cmd.name) = some keysCmd := by
    rw [hname]
    rfl
  rw [execute_of_findHandler hf, keysCmd, CmdContext.arg, hargs, if_neg (by simp)]
  show (bulkArray (keysLoop ctx.now pattern ctx.db.keys ctx.db).1, _) = _
  rw [(keysLoop_spec ctx.now pattern ctx.db.keys ctx.db).1]
  rfl

/-- **`KEYS *`** lists the whole live key space exactly if no live key begins
with a star and goes on behind it. -/
theorem listsLiveKeys_iff {ctx : CmdContext} (hname : normalize ctx.cmd.name = ascii "KEYS")
    {rest : List Bytes} (hargs : ctx.cmd.args = ascii "*" :: rest) :
    ListsLiveKeys ctx ↔ ∀ key, (ctx.db.live ctx.now key).isSome → ¬ StarredKey key := by
  have hmem : ∀ key, (ctx.db.live ctx.now key).isSome → key ∈ ctx.db.keys := by
    intro key hlive
    obtain ⟨obj, hobj⟩ := Option.isSome_iff_exists.mp hlive
    rw [Dict.mem_keys, (liveEntry_eq_some.mp hobj).1]
    rfl
  have hstar : ∀ key, matchGlob key (ascii "*") = true ↔ ¬ StarredKey key := matchGlob_star
  rw [ListsLiveKeys, execute_keys hname hargs]
  constructor
  · rintro ⟨⟨keys, hreply, -, hkeys⟩, -⟩ key hlive
    rw [repliesKeys_bulkArray.mp hreply] at hkeys
    have hlisted := (hkeys key).mpr hlive
    rw [List.mem_filter, Bool.and_eq_true] at hlisted
    exact (hstar key).mp hlisted.2.2
  · intro h
    refine ⟨⟨_, repliesKeys_bulkArray.mpr rfl, ctx.db.nodupKeys.filter _, fun key => ?_⟩, ?_⟩
    · rw [List.mem_filter, Bool.and_eq_true]
      constructor
      · exact fun hlisted => hlisted.2.1
      · exact fun hlive => ⟨hmem key hlive, hlive, (hstar key).mpr (h key hlive)⟩
    · intro key
      rw [get_keysLoop_eq]
      split
      · rfl
      · next hnot =>
        rw [Dict.mem_keys, Option.isSome_iff_ne_none, not_not] at hnot
        rw [hnot, Dict.live, hnot]
        rfl

/-- A key space with the keys `*` and `a`. -/
def plainKeys : Dict :=
  ((∅ : Dict).set (ascii "*") (.createString [])).set (ascii "a") (.createString [])

theorem listsLiveKeys_iff_plainKeys :
    ListsLiveKeys ⟨plainKeys, ⟨ascii "keys", [ascii "*"]⟩, 0, fun _ _ => 0⟩ ↔
      ∀ key, (plainKeys.live 0 key).isSome → ¬ StarredKey key :=
  @listsLiveKeys_iff ⟨plainKeys, ⟨ascii "keys", [ascii "*"]⟩, 0, fun _ _ => 0⟩ (by decide) [] rfl

/-- The key `*a` is not listed. -/
theorem not_listsLiveKeys_starred : ¬ ListsLiveKeys
    ⟨(∅ : Dict).set (ascii "*a") (.createString []), ⟨ascii "KEYS", [ascii "*"]⟩, 0,
      fun _ _ => 0⟩ := by
  rintro ⟨⟨keys, hreply, -, hkeys⟩, -⟩
  have hexec : (execute ⟨(∅ : Dict).set (ascii "*a") (.createString []),
      ⟨ascii "KEYS", [ascii "*"]⟩, 0, fun _ _ => 0⟩).1 = bulkArray [] := by decide
  rw [hexec] at hreply
  have hlisted := (hkeys (ascii "*a")).mpr (by decide)
  rw [repliesKeys_bulkArray.mp hreply] at hlisted
  exact List.not_mem_nil hlisted

end RedisLike
