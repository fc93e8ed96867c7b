import RedisLike.Double.ReadBack
import RedisLike.Server.Ranks

/-!
# RedisLike.Server.ShownScores

The texts that the server shows for a score.

`ZSCORE`, and `ZRANGE` and `ZREVRANGE` with the scores, print the stored score with
the six significant digits of `std::ostringstream` (`shows_iff`).  A score that is an
integer with more digits does not read back, and two scores that are rounded to
one number are shown as one (`zAdd_readsBack_iff`).
-/

namespace RedisLike

open RedisServer

/-- The state behind a `ZADD` of one member. -/
def zAdded (db : Dict) (moment : Moment) (key score member : Bytes) : Dict :=
  (response db ⟨moment, ⟨ascii "ZADD", [key, score, member]⟩⟩).2

/-- A listing of members, each with the text of its score behind it. -/
def pairArray (pairs : List (Bytes × Bytes)) : Bytes :=
  bulkArray (pairs.flatMap fun p => [p.1, p.2])

/-- The server shows the text as the score of the member. -/
inductive Shows (db : Dict) (moment : Moment) (key member shown : Bytes) : Prop where
  | zscore (h : answer db moment (ascii "ZSCORE") [key, member] = RespCodec.bulkString shown)
  | range {name : Bytes} {args : List Bytes} {pairs : List (Bytes × Bytes)}
      (hname : name = ascii "ZRANGE" ∨ name = ascii "ZREVRANGE")
      (hargs : hasWithscores (key :: args) = true)
      (h : answer db moment name (key :: args) = pairArray pairs)
      (hmem : (member, shown) ∈ pairs)

/-- The score is stored for the member, and the key is live. -/
def Stored (db : Dict) (now : TimePoint) (key member : Bytes) (score : Double) : Prop :=
  ∃ obj sl, db.live now key = some obj ∧ obj.value = .zset sl ∧ sl.getScore member = some score

/-! ## Listings -/

theorem bulkString_injective : Function.Injective RespCodec.bulkString := by
  intro s s' h
  have harray := @array_bulkStrings_injective [s] [s']
    (congrArg (fun item => RespCodec.array [item]) h)
  exact List.singleton_inj.mp harray

theorem snd_of_mem_pairs {f : Bytes → Bytes} {pairs : List (Bytes × Bytes)} {members : List Bytes}
    (h : pairs.flatMap (fun p => [p.1, p.2]) = members.flatMap fun m => [m, f m]) :
    ∀ p ∈ pairs, p.2 = f p.1 := by
  induction pairs generalizing members with
  | nil => exact fun p hp => nomatch hp
  | cons p pairs ih =>
      cases members with
      | nil => cases h
      | cons m members =>
          simp only [List.flatMap_cons, List.cons_append, List.nil_append, List.cons.injEq] at h
          obtain ⟨hm, hs, hrest⟩ := h
          refine List.forall_mem_cons.mpr ⟨?_, ih hrest⟩
          rw [hs, hm]

/-- The reply of `ZREVRANGE` is a listing. -/
theorem zRevRange_eq_membersReply (sl : SkipList) (withscores : Bool) (start stop : Int) :
    ∃ members, zRevRange sl withscores start stop = membersReply sl withscores members := by
  have hempty : RespCodec.emptyArray = membersReply sl withscores [] := rfl
  have hite : ∀ (p q : Prop) [Decidable p] [Decidable q] (xs : List Bytes), ∃ members,
      (if p then RespCodec.emptyArray
        else if q then RespCodec.emptyArray else membersReply sl withscores xs) =
          membersReply sl withscores members := by
    intro p q _ _ xs
    split
    · exact ⟨[], hempty⟩
    · split
      · exact ⟨[], hempty⟩
      · exact ⟨xs, rfl⟩
  exact hite _ _ _

theorem error_ne_pairArray (msg : Bytes) (pairs : List (Bytes × Bytes)) :
    RespCodec.error msg ≠ pairArray pairs := by
  intro h
  cases congrArg List.head? h

/-- A listing with scores pairs each member with the text of its score. -/
theorem scoreText_of_mem_pairs {sl : SkipList} {members : List Bytes}
    {pairs : List (Bytes × Bytes)} (h : membersReply sl true members = pairArray pairs) :
    ∀ p ∈ pairs, p.2 = scoreText sl p.1 := by
  rw [membersReply, pairArray] at h
  exact snd_of_mem_pairs (array_bulkStrings_injective h).symm

/-- The handler lists members with their scores, or fails before it looks at the key. -/
def Lists (handler : CmdHandler) (ctx : CmdContext) : Prop :=
  (∃ msg, handler ctx = (RespCodec.error msg, ctx.db)) ∨
    ∃ present, (∀ sl, ∃ members, present sl = membersReply sl true members) ∧
      handler ctx = readZSet ctx RespCodec.emptyArray present

theorem zRangeCmd_lists {ctx : CmdContext} (h : hasWithscores ctx.cmd.args = true) :
    Lists zRangeCmd ctx := by
  unfold Lists zRangeCmd
  rw [h]
  split
  · exact .inl ⟨_, rfl⟩
  · split
    · exact .inr ⟨_, fun sl => ⟨_, rfl⟩, rfl⟩
    · exact .inl ⟨_, rfl⟩

theorem zRevRangeCmd_lists {ctx : CmdContext} (h : hasWithscores ctx.cmd.args = true) :
    Lists zRevRangeCmd ctx := by
  unfold Lists zRevRangeCmd
  rw [h]
  split
  · exact .inl ⟨_, rfl⟩
  · split
    · exact .inr ⟨_, fun sl => zRevRange_eq_membersReply sl true _ _, rfl⟩
    · exact .inl ⟨_, rfl⟩

/-! ## What is shown -/

section shown

variable {db : Dict} {moment : Moment} {key member shown : Bytes} {score : Double}

/-- The reply of a range with its scores is a listing of the stored list, or an error. -/
theorem answer_range {name : Bytes} {args : List Bytes} {obj : RedisObject} {sl : SkipList}
    (hlive : db.live moment.now key = some obj) (hv : obj.value = .zset sl)
    (hname : name = ascii "ZRANGE" ∨ name = ascii "ZREVRANGE")
    (hargs : hasWithscores (key :: args) = true) :
    (∃ msg, answer db moment name (key :: args) = RespCodec.error msg) ∨
      ∃ members, answer db moment name (key :: args) = membersReply sl true members := by
  obtain ⟨handler, hf, hlists⟩ : ∃ handler, findHandler (normalize name) = some handler ∧
      Lists handler ⟨db, ⟨name, key :: args⟩, moment.now, moment.rng⟩ := by
    rcases hname with rfl | rfl
    · exact ⟨zRangeCmd, rfl, zRangeCmd_lists hargs⟩
    · exact ⟨zRevRangeCmd, rfl, zRevRangeCmd_lists hargs⟩
  rcases hlists with ⟨msg, herror⟩ | ⟨present, hpresent, hread⟩
  · refine .inl ⟨msg, ?_⟩
    rw [answer_eq, execute_of_findHandler hf, herror]
  · obtain ⟨members, hmembers⟩ := hpresent sl
    refine .inr ⟨members, ?_⟩
    rw [answer_readZSet hlive hv hf hread, hmembers]

/-- **Every text that is shown is the printed score**, and `ZSCORE` shows it. -/
theorem shows_iff (h : Stored db moment.now key member score) :
    Shows db moment key member shown ↔ shown = score.toText := by
  obtain ⟨obj, sl, hlive, hv, hscore⟩ := h
  have hzscore : answer db moment (ascii "ZSCORE") [key, member] =
      RespCodec.bulkString score.toText := by
    have harg : CmdContext.arg ⟨db, ⟨ascii "ZSCORE", [key, member]⟩, moment.now, moment.rng⟩ 1 =
        member := rfl
    rw [answer_readZSet hlive hv rfl rfl]
    simp only [harg, hscore]
  constructor
  · rintro (h | ⟨hname, hargs, h, hmem⟩)
    · exact bulkString_injective (h.symm.trans hzscore)
    · rcases answer_range hlive hv hname hargs with ⟨msg, herror⟩ | ⟨members, hreply⟩
      · exact absurd (herror.symm.trans h) (error_ne_pairArray msg _)
      · have htext := scoreText_of_mem_pairs (hreply.symm.trans h) _ hmem
        rw [scoreText, hscore] at htext
        exact htext
  · rintro rfl
    exact .zscore hzscore

end shown

/-! ## After a `ZADD` -/

/-- An `Insert` leaves a score that is equal to the given one. -/
theorem SkipList.exists_getScore_insert {score : Double} (hs : score.isNaN = false) (sl : SkipList)
    (member : Bytes) (level : Level) :
    ∃ s, (sl.insert score member level).2.getScore member = some s ∧ s.eq score = true := by
  have hself : score.eq score = true := by rw [Double.eq_eq hs hs, decide_eq_true_iff]
  unfold SkipList.insert
  cases hold : sl.scoreMap.lookup member with
  | none =>
      refine ⟨score, ?_, hself⟩
      rw [SkipList.getScore_insertNode, if_pos rfl]
  | some old =>
      by_cases heq : old.eq score = true
      · refine ⟨old, ?_, heq⟩
        simp only [heq, if_true]
        exact hold
      · refine ⟨score, ?_, hself⟩
        simp only [heq, if_false, Bool.false_eq_true]
        rw [SkipList.getScore_insertNode, if_pos rfl]

/-- The entry that a `ZADD` of one member leaves. -/
theorem stored_zAdded {db : Dict} {moment moment' : Moment} {key text member : Bytes} {d : Double}
    (hkey : ∀ obj, db.live moment.now key = some obj → ∃ sl, obj.value = .zset sl)
    (hparse : parseDouble text = some d) (hd : d.isNaN = false)
    (hlive : ((zAdded db moment key text member).live moment'.now key).isSome) :
    ∃ s, Stored (zAdded db moment key text member) moment'.now key member s ∧ s.eq d = true := by
  obtain ⟨obj, sl, hobj, hv⟩ : ∃ obj sl,
      (db.live moment.now key).getD RedisObject.createZSet = obj ∧ obj.value = .zset sl := by
    cases hentry : db.live moment.now key with
    | none => exact ⟨_, _, rfl, rfl⟩
    | some obj =>
        obtain ⟨sl, hsl⟩ := hkey obj hentry
        exact ⟨obj, sl, rfl, hsl⟩
  obtain ⟨s, hs, heq⟩ := sl.exists_getScore_insert hd member (randomLevel (moment.rng 0))
  have hf : findHandler (normalize (ascii "ZADD")) = some zAddCmd := rfl
  have hget : (zAdded db moment key text member).get key =
      some (obj.withValue (.zset (sl.insert d member (randomLevel (moment.rng 0))).2)) := by
    have hloop : zAddLoop moment.rng [text, member] 0 sl 0 =
        (some (if (sl.getScore member).isSome then 0 else 1),
          (sl.insert d member (randomLevel (moment.rng 0))).2) := by
      simp only [zAddLoop, hparse]
    rw [zAdded, response_eq, execute_of_findHandler hf]
    simp only [zAddCmd, Step.context, CmdContext.arg, List.getD_cons_zero, List.length_cons,
      List.length_nil, List.drop_one, List.tail_cons, getOrCreateObject_eq, hobj, hv,
      ValueVariant.asZSet, Option.map_some, orReply, hloop]
    rw [if_neg (by decide), Dict.get_set, if_pos rfl]
  obtain ⟨obj', hobj'⟩ := Option.isSome_iff_exists.mp hlive
  rw [Dict.live, liveEntry_eq_some, hget, Option.some.injEq] at hobj'
  refine ⟨s, ⟨obj', _, ?_, by rw [← hobj'.1]; rfl, hs⟩, heq⟩
  rw [Dict.live, liveEntry_eq_some, hget, hobj'.1]
  exact ⟨rfl, hobj'.2⟩

/-- **A score reads back from every text that is shown for it** if it has six
significant digits at most, and it is never shown as another stored score if the two
are not rounded to one number. -/
theorem zAdd_readsBack_iff {db : Dict} {moment moment' : Moment} {key text member : Bytes}
    {d : Double} {n : Int}
    (hkey : ∀ obj, db.live moment.now key = some obj → ∃ sl, obj.value = .zset sl)
    (hparse : parseDouble text = some d) (hd : d.IsInteger n) (hn : n.natAbs < 2 ^ 53)
    (hlive : ((zAdded db moment key text member).live moment'.now key).isSome) :
    ((∀ shown, Shows (zAdded db moment key text member) moment' key member shown →
        d.ReadsBack shown) ↔ SigDigits 6 n.natAbs) ∧
      ∀ key' member' d' n',
        Stored (zAdded db moment key text member) moment'.now key' member' d' →
          d'.IsInteger n' → n'.natAbs < 2 ^ 53 → n' ≠ n →
            ((∀ shown, Shows (zAdded db moment key text member) moment' key member shown →
                ¬ Shows (zAdded db moment key text member) moment' key' member' shown) ↔
              Double.roundedInt n ≠ Double.roundedInt n') := by
  obtain ⟨s, hstored, heq⟩ := @stored_zAdded _ _ _ _ _ member _ hkey hparse hd.isNaN hlive
  have hs : s.IsInteger n := hd.of_eq heq
  constructor
  · simp only [shows_iff hstored, forall_eq, Double.readsBack_congr heq]
    exact Double.readsBack_toText_iff hs hn
  · intro key' member' d' n' hstored' hd' hn' hne
    simp only [shows_iff hstored, shows_iff hstored', forall_eq]
    exact (Double.toText_eq_iff hs hd' hn hn' hne.symm).not

/-- A double whose fraction is an integer. -/
theorem Double.isInteger_natCast {d : Double} {n c : Nat}
    (hfinite : d.magnitude < infinityMagnitude) (hneg : d.negative = false) (hc : c ≠ 0)
    (h : Double.fraction d.magnitude = (n * c, c)) :
    d.IsInteger n := by
  refine ⟨hfinite, ?_⟩
  have hc' : (c : ℚ) ≠ 0 := Nat.cast_ne_zero.mpr hc
  rw [Double.value, hneg, h, Nat.cast_mul, mul_div_cancel_right₀ _ hc', if_neg Bool.false_ne_true,
    one_mul, Int.cast_natCast]

def firstMoment : Moment := ⟨0, fun _ _ => 1⟩

/-- The double 100. -/
def hundred : Double := ⟨0x4059000000000000⟩

theorem zAdd_readsBack_iff_hundred : parseDouble (ascii "100") = some hundred ∧
    ∀ shown, Shows (zAdded ∅ firstMoment (ascii "k") (ascii "100") (ascii "m")) firstMoment
      (ascii "k") (ascii "m") shown → hundred.ReadsBack shown := by
  have hparse : parseDouble (ascii "100") = some hundred := by decide +kernel
  have hint : hundred.IsInteger 100 :=
    @Double.isInteger_natCast _ 100 (2 ^ 46) (by decide) (by decide) (by decide) (by decide)
  refine ⟨hparse, (@zAdd_readsBack_iff ∅ firstMoment firstMoment (ascii "k") (ascii "100")
    (ascii "m") hundred 100 (fun _ h => by cases h) hparse hint (by decide)
    (by decide +kernel)).1.mpr ?_⟩
  exact ⟨1, 2, by decide, by decide⟩

/-- The doubles 1234567 and 1234568. -/
def sevenDigits : Double × Double := (⟨0x4132D68700000000⟩, ⟨0x4132D68800000000⟩)

/-- Two members with these scores. -/
def sevenDigitsDb : Dict :=
  zAdded (zAdded ∅ firstMoment (ascii "k") (ascii "1234567") (ascii "a")) firstMoment (ascii "k")
    (ascii "1234568") (ascii "b")

/-- Neither score reads back, and both are shown as one. -/
theorem zAdd_sevenDigits :
    parseDouble (ascii "1234567") = some sevenDigits.1 ∧ sevenDigits.1.IsInteger 1234567 ∧
    parseDouble (ascii "1234568") = some sevenDigits.2 ∧ sevenDigits.2.IsInteger 1234568 ∧
    Shows sevenDigitsDb firstMoment (ascii "k") (ascii "a") (ascii "1.23457e+06") ∧
    Shows sevenDigitsDb firstMoment (ascii "k") (ascii "b") (ascii "1.23457e+06") ∧
    ¬ sevenDigits.1.ReadsBack (ascii "1.23457e+06") ∧
    ¬ sevenDigits.2.ReadsBack (ascii "1.23457e+06") := by
  have hread : parseDouble (ascii "1.23457e+06") = some ⟨0x4132D68A00000000⟩ := by decide +kernel
  refine ⟨by decide +kernel, ?_, by decide +kernel, ?_, .zscore ?_, .zscore ?_, ?_, ?_⟩
  · exact @Double.isInteger_natCast _ 1234567 (2 ^ 32) (by decide) (by decide) (by decide)
      (by decide)
  · exact @Double.isInteger_natCast _ 1234568 (2 ^ 32) (by decide) (by decide) (by decide)
      (by decide)
  · decide +kernel
  · decide +kernel
  · rintro ⟨d, hd, heq⟩
    rw [hread, Option.some.injEq] at hd
    subst hd
    exact absurd heq (by decide)
  · rintro ⟨d, hd, heq⟩
    rw [hread, Option.some.injEq] at hd
    subst hd
    exact absurd heq (by decide)

end RedisLike
