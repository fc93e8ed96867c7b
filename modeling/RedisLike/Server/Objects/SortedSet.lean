import RedisLike.Command.Ranges
import RedisLike.Lib.Distinct
import RedisLike.Server.Objects
import RedisLike.Server.Scores
import RedisLike.SkipList.Rank

/-!
# RedisLike.Server.Objects.SortedSet

A sorted set is a finite map from members to scores, with its pairs in order.

`calls` says of the eight commands on sorted sets what they reply on such a map
and what they make of it.  A sorted set without members is not the same as none:
a `ZADD` that fails at its first score leaves one behind, which has a type and may
get a deadline.  A NaN has no place among the scores, so the object promises nothing
on a key where a `ZADD` stores one.
-/

namespace RedisLike

open LastWriter

/-- No score is a NaN, as a test. -/
theorem noNaN_iff (writes : List (Bytes × Option Double)) :
    (∀ w ∈ writes, w.2.all (fun s => !s.isNaN) = true) ↔ NoNaN writes := by
  refine forall_congr' fun w => forall_congr' fun _ => ?_
  cases w.2 <;> simp

instance (writes : List (Bytes × Option Double)) : Decidable (NoNaN writes) :=
  decidable_of_iff _ (noNaN_iff writes)

instance (cmd : RespCommand) : Decidable cmd.ReadsNaN :=
  inferInstanceAs (Decidable (_ ∧ _ ∧ _ ∧ ¬ _))

namespace SortedSetObject

/-- The scores of the members. -/
abbrev Scores := Bytes → Option Double

/-- The scores of a sorted set that is stored. -/
abbrev Stored := Option Scores

/-- A key without a sorted set has no scores. -/
def scoresOf (s : Stored) : Scores := s.getD fun _ => none

/-- What stays stored of some scores, once members are gone: nothing, without members. -/
def Leaves (m : Scores) (s : Stored) : Prop :=
  (∀ member, m member = none) ∧ s = none ∨ (∃ member, (m member).isSome) ∧ s = some m

/-- The pairs of a map, by their scores, and by their members where those are equal. -/
def Ranked (l : List (Bytes × Double)) (m : Scores) : Prop :=
  l.Pairwise (fun p q => SkipList.itemKey p < SkipList.itemKey q) ∧
    ∀ member s, (member, s) ∈ l ↔ m member = some s

/-- The index of a member. -/
def place (member : Bytes) (l : List (Bytes × Double)) : Option Nat :=
  l.findIdx? fun p => p.1 = member

/-- The reply of a range. -/
def pairsReply (withscores : Bool) (l : List (Bytes × Double)) : Bytes :=
  bulkArray (l.flatMap fun p => if withscores then [p.1, p.2.toText] else [p.1])

/-! ## The calls -/

/-- `ZADD`: the pairs up to the first score that is no number are stored, and the
sorted set with them, even when there are none.  A score that equals the stored one
leaves it. -/
def zAdd : Call Stored := .checked (fun args => 3 ≤ args.length && args.length % 2 = 1)
  fun args s reply s' => s' = some (storeAll Double.eq (scoresOf s) (scoreWrites (args.drop 1))) ∧
    reply = if (scoreWrites (args.drop 1)).length = (args.drop 1).length / 2 then
      RespCodec.integer ((((scoreWrites (args.drop 1)).map Prod.fst).toFinset.filter
        fun member => scoresOf s member = none).card : Nat)
    else RespCodec.error (ascii "ERR value is not a valid float")

/-- `ZREM`: the reply is the number of members that were there. -/
def zRem : Call Stored := .checked (fun args => 2 ≤ args.length) fun args s reply s' =>
  reply = RespCodec.integer
    (((args.drop 1).toFinset.filter fun member => (scoresOf s member).isSome).card : Nat) ∧
    Leaves (fun member => if member ∈ args.drop 1 then none else scoresOf s member) s'

/-- `ZSCORE`. -/
def zScore : Call Stored := .checked (fun args => 2 ≤ args.length) <| .reading
  fun args s reply => reply = (scoresOf s (args.getD 1 [])).elim RespCodec.nullBulkString
    fun score => RespCodec.bulkString score.toText

/-- The commands that reply the index of a member, from one end. -/
def rank (order : List (Bytes × Double) → List (Bytes × Double)) : Call Stored :=
  .checked (fun args => 2 ≤ args.length) <| .reading fun args s reply =>
    ∃ l, Ranked l (scoresOf s) ∧
      reply = (place (args.getD 1 []) (order l)).elim RespCodec.nullBulkString
        fun n => RespCodec.integer n

/-- `ZRANK`. -/
def zRank : Call Stored := rank id

/-- `ZREVRANK`. -/
def zRevRank : Call Stored := rank List.reverse

/-- The commands that reply a part of the pairs, from one end. -/
def range (order : List (Bytes × Double) → List (Bytes × Double)) : Call Stored :=
  .checked (fun args => 3 ≤ args.length && (rangeArgs args).isSome) <| .reading
  fun args s reply => ∃ l start stop, Ranked l (scoresOf s) ∧
    rangeArgs args = some (start, stop) ∧
    reply = pairsReply (hasWithscores args) (slice (order l) start.toInt stop.toInt)

/-- `ZRANGE`. -/
def zRange : Call Stored := range id

/-- `ZREVRANGE`. -/
def zRevRange : Call Stored := range List.reverse

/-- `ZCARD`. -/
def zCard : Call Stored := .checked (fun args => !args.isEmpty) <| .reading
  fun _ s reply => ∃ l, Ranked l (scoresOf s) ∧ reply = RespCodec.integer l.length

/-- The commands on sorted sets. -/
def calls : List (Bytes × Call Stored) :=
  [ (ascii "ZADD", zAdd), (ascii "ZREM", zRem), (ascii "ZSCORE", zScore), (ascii "ZRANK", zRank),
    (ascii "ZREVRANK", zRevRank), (ascii "ZRANGE", zRange), (ascii "ZREVRANGE", zRevRange),
    (ascii "ZCARD", zCard) ]

/-! ## Loops -/

theorem zAddLoop_fst (rng : Nat → Nat → Nat) (args : List Bytes) (i : Nat) {sl : SkipList}
    (added : Nat) (hv : sl.Valid) (hnan : NoNaN (scoreWrites args)) :
    (zAddLoop rng args i sl added).1 = if (scoreWrites args).length = args.length / 2 then
      some (added + (((scoreWrites args).map Prod.fst).toFinset.filter
        fun member => sl.getScore member = none).card)
    else none := by
  have hhalf : ∀ (text member : Bytes) (rest : List Bytes),
      (text :: member :: rest).length / 2 = rest.length / 2 + 1 := fun text member rest => by
    rw [List.length_cons, List.length_cons]
    omega
  fun_induction zAddLoop rng args i sl added with
  | case1 text member rest i sl added hs =>
      rw [hhalf, if_neg (by simp [scoreWrites, hs])]
  | case2 text member rest i sl added score hs existed ih =>
      have hwrites : scoreWrites (text :: member :: rest) =
          (member, some score) :: scoreWrites rest := by simp [scoreWrites, hs]
      rw [hwrites] at hnan ⊢
      have hvalid := SkipList.insert_valid hv member (randomLevel (rng i))
        (hnan (member, some score) (by simp) score rfl)
      have hfilter : (((scoreWrites rest).map Prod.fst).toFinset.filter fun x =>
          (sl.insert score member (randomLevel (rng i))).2.getScore x = none) =
          ((scoreWrites rest).map Prod.fst).toFinset.filter fun x =>
            sl.getScore x = none ∧ x ≠ member :=
        Finset.filter_congr fun x _ => by
          rw [SkipList.getScore_insert hv, Function.update_apply]
          split <;> simp [*]
      have hcount : (if existed = true then added else added + 1) =
          added + if sl.getScore member = none then 1 else 0 := by
        cases hold : sl.getScore member <;> simp [existed, hold]
      rw [ih hvalid fun w hw => hnan w (List.mem_cons_of_mem _ hw), hfilter, hhalf,
        List.length_cons, List.map_cons, List.toFinset_cons, Distinct.card_filter_insert,
        ← Nat.add_assoc, hcount]
      simp only [Nat.add_right_cancel_iff]
  | case3 args i sl added hargs =>
      have hnil : scoreWrites args = [] := by
        rw [scoreWrites]
        exact fun text member rest heq => hargs text member rest heq
      have hnone : args.length / 2 = 0 := by
        rcases args with _ | ⟨text, _ | ⟨member, rest⟩⟩
        · rfl
        · simp
        · exact absurd rfl (hargs text member rest)
      rw [hnil, hnone]
      rfl

theorem zRemLoop_fst (args : List Bytes) {sl : SkipList} (hv : sl.Valid) (removed : Nat) :
    (zRemLoop args sl removed).1 =
      removed + (args.toFinset.filter fun member => (sl.getScore member).isSome).card := by
  have hloop := @Distinct.loop_fst _ _ _ zRemLoop (fun member sl => (sl.delete member).2)
    (fun sl member => (sl.delete member).1 = true) _ SkipList.Valid (fun _ _ => rfl)
    (fun _ _ _ _ => rfl) (fun member sl hv => SkipList.delete_valid hv member)
    (fun member sl hv x => by
      rw [SkipList.delete_fst (SkipList.delete_valid hv member), SkipList.delete_fst hv,
        SkipList.getScore_delete hv, Function.update_apply]
      split <;> simp [*]) args sl hv removed
  rw [hloop]
  simp only [SkipList.delete_fst hv]

theorem getScore_zRemLoop (args : List Bytes) {sl : SkipList} (hv : sl.Valid) (removed : Nat) :
    (zRemLoop args sl removed).2.getScore =
      fun member => if member ∈ args then none else sl.getScore member := by
  funext x
  induction args generalizing sl removed with
  | nil => rfl
  | cons member args ih =>
      rw [zRemLoop, ih (SkipList.delete_valid hv member), SkipList.getScore_delete hv,
        Function.update_apply]
      by_cases hx : x = member <;> by_cases hm : x ∈ args <;> simp [hx, hm]

/-! ## Order -/

/-- The pairs of a list are those of its scores, in order. -/
theorem ranked_items {sl : SkipList} (hv : sl.Valid) : Ranked sl.items sl.getScore :=
  ⟨hv.items_sorted, fun _ _ => hv.mem_items⟩

theorem ranked_nil : Ranked [] fun _ => none :=
  ⟨.nil, fun _ _ => by simp⟩

theorem place_append {member : Bytes} {s : Double} {pre post : List (Bytes × Double)}
    (h : member ∉ pre.map Prod.fst) :
    place member (pre ++ (member, s) :: post) = some pre.length := by
  have hpre : pre.findIdx? (fun p => p.1 = member) = none :=
    List.findIdx?_eq_none_iff.mpr fun p hp => by
      simpa using fun heq => h (List.mem_map.mpr ⟨p, hp, heq⟩)
  rw [place, List.findIdx?_append, hpre]
  simp [List.findIdx?_cons]

theorem place_eq_none {member : Bytes} {l : List (Bytes × Double)}
    (h : member ∉ l.map Prod.fst) : place member l = none :=
  List.findIdx?_eq_none_iff.mpr fun p hp => by
    simpa using fun heq => h (List.mem_map.mpr ⟨p, hp, heq⟩)

/-- `GetRank` is the index of the member, and counting it from the size is the
index from the other end. -/
theorem getRank_eq_place {sl : SkipList} (hv : sl.Valid) (member : Bytes) :
    sl.getRank member = place member sl.items ∧
      (sl.getRank member).map (fun n => (sl.size : Int) - 1 - n) =
        (place member sl.items.reverse).map fun n => (n : Int) := by
  cases hs : sl.getScore member with
  | none =>
      have hnot : member ∉ sl.items.map Prod.fst := fun hmem => by
        obtain ⟨p, hp, rfl⟩ := List.mem_map.mp hmem
        rw [hv.mem_items.mp hp] at hs
        contradiction
      rw [SkipList.getRank_of_absent hs, place_eq_none hnot, place_eq_none (by simpa using hnot)]
      exact ⟨rfl, rfl⟩
  | some s =>
      obtain ⟨pre, post, hitems, hpre, -⟩ := hv.exists_items_eq hs
      have hnodup := hv.nodup_members
      rw [hitems, List.map_append, List.map_cons, List.nodup_middle, List.nodup_cons] at hnodup
      have hnot := hnodup.1
      rw [List.mem_append, not_or] at hnot
      have hsize : sl.size = pre.length + (post.length + 1) := by
        rw [hv.inOrder.size_eq, List.length_map, hitems, List.length_append, List.length_cons]
      rw [hv.getRank_eq hitems hpre, hitems, place_append hnot.1, List.reverse_append,
        List.reverse_cons, List.append_assoc, List.singleton_append,
        place_append (by simpa using hnot.2), hsize, List.length_reverse]
      refine ⟨rfl, congrArg some ?_⟩
      push_cast
      omega

/-- A listing of pairs of the list. -/
theorem membersReply_eq {sl : SkipList} (hv : sl.Valid) (withscores : Bool)
    {l : List (Bytes × Double)} (hl : ∀ p ∈ l, p ∈ sl.items) :
    membersReply sl withscores (l.map Prod.fst) = pairsReply withscores l := by
  rw [membersReply, pairsReply, List.flatMap_map]
  congr 1
  refine List.flatMap_congr fun p hp => ?_
  rw [scoreText, hv.mem_items.mp (hl p hp)]
  rfl

/-! ## The object -/

/-- A skip list stands for its scores. -/
def rep : Representation SkipList Stored where
  kind := sortedSets.kind
  Rep sl s := sl.Valid ∧ sl.getScore = scoresOf s
  init := none

/-- A list is stored as long as it has a member. -/
theorem exists_leaves {sl : SkipList} (hv : sl.Valid) :
    ∃ s, rep.Rep sl s ∧ (sl.size = 0 ↔ s = none) ∧ Leaves sl.getScore s := by
  by_cases hempty : sl.size = 0
  · have hnone : sl.getScore = fun _ => none := hv.size_eq_zero_iff.mp hempty
    exact ⟨none, ⟨hv, hnone⟩, iff_of_true hempty rfl, .inl ⟨congrFun hnone, rfl⟩⟩
  · refine ⟨some sl.getScore, ⟨hv, rfl⟩, iff_of_false hempty (Option.some_ne_none _),
      .inr ⟨?_, rfl⟩⟩
    by_contra hnone
    refine hempty (hv.size_eq_zero_iff.mpr (funext fun member => ?_))
    exact Option.not_isSome_iff_eq_none.mp fun hsome => hnone ⟨member, hsome⟩

section refines

variable (ctx : CmdContext)

theorem zAdd_refines (hname : normalize ctx.cmd.name = ascii "ZADD") (hnan : ¬ ctx.cmd.ReadsNaN) :
    rep.RefinesAt (CmdHandler.on zAddCmd ctx) ctx.now (ctx.arg 0) (zAdd ctx.cmd.args) := by
  refine Representation.refinesAt_action (isError_error _) (zAddCmd_performs ctx) ?_
    fun hargs hspec => Representation.refinesAt_create hspec ⟨SkipList.valid_new, rfl⟩ ?_
  · rw [Bool.and_eq_true, decide_eq_true_eq, decide_eq_true_eq]
    omega
  · rintro sl s ⟨hv, hs⟩
    have hno : NoNaN (scoreWrites (ctx.cmd.args.drop 1)) := not_not.mp fun hn =>
      hnan ⟨hname, by omega, by omega, hn⟩
    obtain ⟨hv', hscores⟩ := zAddLoop_spec ctx.rng (ctx.cmd.args.drop 1) 0 0 hv hno
    refine ⟨_, _, rfl, ⟨hv', rfl⟩, Option.some_ne_none _, congrArg some (hs ▸ hscores), ?_⟩
    simp only [← hs, zAddLoop_fst ctx.rng (ctx.cmd.args.drop 1) 0 0 hv hno, Nat.zero_add]
    by_cases hall : (scoreWrites (ctx.cmd.args.drop 1)).length = (ctx.cmd.args.drop 1).length / 2
    · simp only [if_pos hall]
    · simp only [if_neg hall]

theorem zRem_refines :
    rep.RefinesAt (CmdHandler.on zRemCmd ctx) ctx.now (ctx.arg 0) (zRem ctx.cmd.args) := by
  refine Representation.refinesAt_action (isError_error _) (zRemCmd_performs ctx)
    (Representation.le_iff_not_lt _ _)
    fun hargs hspec => Representation.refinesAt_remove hspec ?_ ?_
  · exact ⟨by simp [rep, scoresOf], .inl ⟨fun _ => by simp [rep, scoresOf], rfl⟩⟩
  · rintro sl s ⟨hv, hs⟩ -
    obtain ⟨s', hrep, hempty, hleaves⟩ :=
      exists_leaves (zRemLoop_spec (ctx.cmd.args.drop 1) 0 hv).1
    rw [getScore_zRemLoop _ hv, hs] at hleaves
    refine ⟨_, s', rfl, hrep, decide_eq_true_iff.trans hempty, ?_, hleaves⟩
    simp only [← hs, zRemLoop_fst _ hv, Nat.zero_add]

theorem zScore_refines :
    rep.RefinesAt (CmdHandler.on zScoreCmd ctx) ctx.now (ctx.arg 0) (zScore ctx.cmd.args) := by
  refine Representation.refinesAt_readObject (isError_error _) (fun _ => rfl) (fun _ => rfl)
    (Representation.le_iff_not_lt _ _) rfl ?_
  rintro sl s ⟨-, hs⟩ -
  rw [← hs]
  dsimp only [CmdContext.arg]
  cases sl.getScore (ctx.cmd.args.getD 1 []) <;> rfl

/-- The commands that reply the index of a member. -/
theorem rank_refines {handler : CmdHandler} {err : Bytes} {present : SkipList → Bytes}
    {order : List (Bytes × Double) → List (Bytes × Double)} (herr : isError err = true)
    (hf : ∀ db, handler { ctx with db := db } = if ctx.cmd.args.length < 2 then (err, db)
      else readZSet { ctx with db := db } RespCodec.nullBulkString present)
    (hnil : order [] = [])
    (hpresent : ∀ sl : SkipList, sl.Valid → present sl =
      (place (ctx.arg 1) (order sl.items)).elim RespCodec.nullBulkString
        fun n => RespCodec.integer n) :
    rep.RefinesAt (CmdHandler.on handler ctx) ctx.now (ctx.arg 0) (rank order ctx.cmd.args) := by
  refine Representation.refinesAt_readObject herr hf (fun _ => rfl)
    (Representation.le_iff_not_lt _ _) ⟨[], ranked_nil, by rw [hnil]; rfl⟩ ?_
  rintro sl s ⟨hv, hs⟩ -
  exact ⟨sl.items, hs ▸ ranked_items hv, hpresent sl hv⟩

theorem zRank_refines :
    rep.RefinesAt (CmdHandler.on zRankCmd ctx) ctx.now (ctx.arg 0) (zRank ctx.cmd.args) := by
  refine @rank_refines ctx zRankCmd _ (fun sl => (sl.getRank (ctx.arg 1)).elim
    RespCodec.nullBulkString fun n => RespCodec.integer n) id
    (isError_error (ascii "ERR wrong number of arguments for 'ZRANK'")) (fun db => ?_) rfl
    fun sl hv => by rw [(getRank_eq_place hv _).1]; rfl
  rw [zRankCmd]
  congr 2
  funext sl
  dsimp only [CmdContext.arg]
  cases sl.getRank (ctx.cmd.args.getD 1 []) <;> rfl

theorem zRevRank_refines :
    rep.RefinesAt (CmdHandler.on zRevRankCmd ctx) ctx.now (ctx.arg 0) (zRevRank ctx.cmd.args) := by
  refine @rank_refines ctx zRevRankCmd _ (fun sl =>
    ((sl.getRank (ctx.arg 1)).map fun n => (sl.size : Int) - 1 - n).elim
      RespCodec.nullBulkString RespCodec.integer) List.reverse
    (isError_error (ascii "ERR wrong number of arguments for 'ZREVRANK'")) (fun db => ?_) rfl
    fun sl hv => ?_
  · rw [zRevRankCmd]
    congr 2
    funext sl
    dsimp only [CmdContext.arg]
    cases sl.getRank (ctx.cmd.args.getD 1 []) <;> rfl
  · rw [(getRank_eq_place hv _).2]
    cases place (ctx.arg 1) sl.items.reverse <;> rfl

/-- The commands that reply a range. -/
theorem range_refines {handler : CmdHandler} {err err' : Bytes}
    {present : Int64 × Int64 → SkipList → Bytes}
    {order : List (Bytes × Double) → List (Bytes × Double)} (herr : isError err = true)
    (herr' : isError err' = true)
    (hf : ∀ db, handler { ctx with db := db } = if ctx.cmd.args.length < 3 then (err, db)
      else (rangeArgs ctx.cmd.args).elim (err', db) fun v =>
        readZSet { ctx with db := db } RespCodec.emptyArray (present v))
    (hnil : order [] = [])
    (hpresent : ∀ v, ∀ sl : SkipList, sl.Valid → present v sl =
      pairsReply (hasWithscores ctx.cmd.args) (slice (order sl.items) v.1.toInt v.2.toInt)) :
    rep.RefinesAt (CmdHandler.on handler ctx) ctx.now (ctx.arg 0) (range order ctx.cmd.args) := by
  refine Representation.refinesAt_parsed herr herr' hf (fun v hv => ?_) fun v hv => ?_
  · refine ⟨[], v.1, v.2, ranked_nil, hv, ?_⟩
    rw [hnil, slice_nil]
    rfl
  · rintro sl s ⟨hvalid, hs⟩ -
    exact ⟨sl.items, v.1, v.2, hs ▸ ranked_items hvalid, hv, hpresent v sl hvalid⟩

theorem zRange_refines :
    rep.RefinesAt (CmdHandler.on zRangeCmd ctx) ctx.now (ctx.arg 0) (zRange ctx.cmd.args) := by
  refine @range_refines ctx zRangeCmd _ _
    (fun v sl => membersReply sl (hasWithscores ctx.cmd.args) (sl.rangeByRank v.1.toInt v.2.toInt))
    id (isError_error (ascii "ERR wrong number of arguments for 'ZRANGE'"))
    (isError_error (ascii "ERR value is not an integer")) (fun db => ?_) rfl fun v sl hv => ?_
  · rw [zRangeCmd, rangeArgs]
    dsimp only [CmdContext.arg]
    cases parseInt (ctx.cmd.args.getD 1 []) <;> cases parseInt (ctx.cmd.args.getD 2 []) <;> rfl
  · rw [SkipList.rangeByRank_eq_slice hv.inOrder, slice_map]
    exact membersReply_eq hv _ fun p hp => (slice_sublist _ _ _).subset hp

theorem zRevRange_refines :
    rep.RefinesAt (CmdHandler.on zRevRangeCmd ctx) ctx.now (ctx.arg 0)
      (zRevRange ctx.cmd.args) := by
  refine @range_refines ctx zRevRangeCmd _ _
    (fun v sl => RedisLike.zRevRange sl (hasWithscores ctx.cmd.args) v.1.toInt v.2.toInt)
    List.reverse (isError_error (ascii "ERR wrong number of arguments for 'ZREVRANGE'"))
    (isError_error (ascii "ERR value is not an integer")) (fun db => ?_) rfl fun v sl hv => ?_
  · rw [zRevRangeCmd, rangeArgs]
    dsimp only [CmdContext.arg]
    cases parseInt (ctx.cmd.args.getD 1 []) <;> cases parseInt (ctx.cmd.args.getD 2 []) <;> rfl
  · rw [zRevRange_eq_slice hv.inOrder, ← List.map_reverse, slice_map]
    exact membersReply_eq hv _ fun p hp => List.mem_reverse.mp ((slice_sublist _ _ _).subset hp)

theorem zCard_refines :
    rep.RefinesAt (CmdHandler.on zCardCmd ctx) ctx.now (ctx.arg 0) (zCard ctx.cmd.args) := by
  refine Representation.refinesAt_readObject (isError_error _) (fun _ => rfl) (fun _ => rfl)
    (Representation.not_isEmpty_iff _) ⟨[], ranked_nil, rfl⟩ ?_
  rintro sl s ⟨hv, hs⟩ -
  refine ⟨sl.items, hs ▸ ranked_items hv, ?_⟩
  rw [hv.inOrder.size_eq, List.length_map]

end refines

/-- Sorted sets. -/
def object : ObjectSpec SkipList Stored where
  toRepresentation := rep
  calls := calls
  ok cmd := decide (¬ cmd.ReadsNaN)
  refines := by
    simp only [calls, List.forall_mem_cons, List.not_mem_nil, false_imp_iff, implies_true, and_true]
    exact ⟨⟨_, rfl, fun ctx hname hok => zAdd_refines ctx hname (of_decide_eq_true hok)⟩,
      ⟨_, rfl, fun ctx _ _ => zRem_refines ctx⟩,
      ⟨_, rfl, fun ctx _ _ => zScore_refines ctx⟩,
      ⟨_, rfl, fun ctx _ _ => zRank_refines ctx⟩,
      ⟨_, rfl, fun ctx _ _ => zRevRank_refines ctx⟩,
      ⟨_, rfl, fun ctx _ _ => zRange_refines ctx⟩,
      ⟨_, rfl, fun ctx _ _ => zRevRange_refines ctx⟩,
      ⟨_, rfl, fun ctx _ _ => zCard_refines ctx⟩⟩

/-- **A sorted set is a finite map with an order, up to its deadline.**  Whatever else
the server does, the commands on a key that only sorted set commands, `EXPIRE`,
`PEXPIRE` and `DEL` write to, without a NaN, reply as those on one finite map from
members to scores, or on none, that is gone from its deadline on, and the entry
stands for that map. -/
theorem zset_history {key : Bytes} {ops : List Op} {db : Dict} (hclock : ClockForward ops)
    (hfree : db.get key = none) (hkeeps : object.Keeps key ops) :
    ∃ x, object.spec.Allowed (.gone none) (object.history key db ops) x ∧
      ∀ now, Until now ops → object.Holds ((runOps db ops).live now key) (x.shown none now) :=
  object.history_allowed hclock hfree hkeeps

/-- A run on the sorted set `z`: an error at a first score, which leaves a sorted set without
members, two members, an error behind a third, a look from the end, and one behind a `DEL`. -/
def zsetOps : List Op :=
  [ .command 5 ⟨⟨1, fun _ _ => 1⟩, ⟨ascii "ZADD", [ascii "z", ascii "x", ascii "a"]⟩⟩,
    .command 6 ⟨⟨1, fun _ _ => 0⟩, ⟨ascii "TYPE", [ascii "z"]⟩⟩,
    .command 5 ⟨⟨1, fun _ _ => 1⟩, ⟨ascii "zadd",
      [ascii "z", ascii "2", ascii "a", ascii "1", ascii "b"]⟩⟩,
    .command 6 ⟨⟨2, fun _ _ => 1⟩, ⟨ascii "ZADD",
      [ascii "z", ascii "inf", ascii "c", ascii "x", ascii "d"]⟩⟩,
    .command 5 ⟨⟨4, fun _ _ => 0⟩, ⟨ascii "ZREVRANGE", [ascii "z", ascii "0", ascii "-1"]⟩⟩,
    .command 6 ⟨⟨5, fun _ _ => 0⟩, ⟨ascii "DEL", [ascii "z"]⟩⟩,
    .command 5 ⟨⟨5, fun _ _ => 0⟩, ⟨ascii "TYPE", [ascii "z"]⟩⟩ ]

theorem zset_history_inf :
    ∃ x, object.spec.Allowed (.gone none) (object.history (ascii "z") ∅ zsetOps) x ∧
      ∀ now, Until now zsetOps →
        object.Holds ((runOps ∅ zsetOps).live now (ascii "z")) (x.shown none now) :=
  zset_history (by decide) rfl (by decide +kernel)

-- a sorted set that is gone has no type, unlike one without members
example {now : TimePoint} {reply : Bytes} {x : ObjectState Stored}
    (h : object.spec (.gone none) (now, ⟨ascii "TYPE", [ascii "z"]⟩) reply x) :
    reply = RespCodec.simpleString (ascii "none") ∧ x = .gone none := by
  obtain ⟨call, hcall, h⟩ := h
  cases hcall
  obtain ⟨rfl, ⟨-, hreply⟩ | ⟨hpresent, -⟩⟩ := h
  · exact ⟨hreply, rfl⟩
  · exact absurd rfl hpresent

end SortedSetObject

end RedisLike
